import Mathlib.Tactic.Ring
import RankOne.Proofs.Evaluation
import RankOne.Proofs.ResidueField

/-!
# Values of sums, and of sums of witnesses

A sum of expressions is evaluated part by part (`LinearExpression.evaluate_add_eq`): it has the sum
of the values of its parts, or the fault of the first part that has none. Which of the two it is,
and the fault, are a matter of ids and of the number of values in the witness
(`LinearExpression.evaluate_eq_error_iff`). Where an expression has a value, this is linear in the
witness (`LinearExpression.evaluate_combine`). `LinearExpression.evaluation_linear` puts these
together.
-/

namespace RankOne

/-- The values `a * x + b * y` for the values `x` and `y` that two witnesses have on each wire. -/
def combine {F : Type} [Add F] [Mul F] (a b : F) (u v : Array F) : Array F :=
  Array.zipWith (fun x y => a * x + b * y) u v

namespace LinearExpression

/-- The empty sum, and then the terms of every part in order. -/
def total (parts : List LinearExpression) : LinearExpression := parts.foldl (· + ·) empty

theorem terms_foldl_add (parts : List LinearExpression) (e : LinearExpression) :
    (parts.foldl (· + ·) e).terms = e.terms ++ parts.flatMap terms := by
  induction parts generalizing e with
  | nil => simp
  | cons d rest ih => rw [List.foldl_cons, ih, terms_add, List.flatMap_cons, List.append_assoc]

/-- A total is the sum of its first part and the total of the others. -/
theorem total_cons (e : LinearExpression) (rest : List LinearExpression) :
    total (e :: rest) = e + total rest := by
  have hterms : (total (e :: rest)).terms = (e + total rest).terms := by
    rw [total, terms_foldl_add, terms_add, total, terms_foldl_add, List.flatMap_cons]
    rfl
  exact congrArg mk hterms

end LinearExpression

variable {F : Type} [Field F] {coeffs : CoeffTable F} {witness u v : Array F}

omit [Field F] in
/-- What a term lacks when it has no value: its coefficient, which is looked at first, or the value
on its wire. -/
theorem Term.fault_iff {count : Nat} {t : Term} {fault : Fault} :
    (¬ t.HasValue coeffs count ∧ fault = t.fault coeffs count) ↔
      (coeffs.size ≤ t.coeff.index ∧ fault = .unknownCoeff t.coeff) ∨
      (t.coeff.index < coeffs.size ∧ count ≤ t.wire.index ∧
        fault = .undeclaredWire t.wire count) := by
  unfold HasValue Term.fault
  by_cases hcoeff : t.coeff.index < coeffs.size
  · simp [hcoeff]
  · simp [hcoeff, Nat.le_of_not_lt hcoeff]

namespace LinearExpression

variable {e d : LinearExpression}

/-! ## Sums -/

/-- What is added up before the first term makes a difference to the value only. -/
theorem accumulate_eq_map (sum : F) (ts : List Term) :
    accumulate coeffs witness sum ts =
      (accumulate coeffs witness 0 ts).map (sum + ·) := by
  cases hoffender : Term.offender? coeffs witness.size ts with
  | some t =>
      rw [accumulate_of_offender sum hoffender, accumulate_of_offender 0 hoffender]
      rfl
  | none =>
      have hvalue := Term.offender?_eq_none_iff.mp hoffender
      rw [accumulate_of_hasValue sum hvalue, accumulate_of_hasValue 0 hvalue, zero_add]
      rfl

/-- The two parts of a sum are evaluated one after the other, and their values are added. -/
theorem evaluate_add_eq (e d : LinearExpression) :
    (e + d).evaluate coeffs witness =
      (e.evaluate coeffs witness).bind fun x => (d.evaluate coeffs witness).map (x + ·) := by
  rw [evaluate_add]
  exact congrArg _ (funext fun x => accumulate_eq_map x d.terms)

theorem evaluate_add_of_ok {x : F} (h : e.evaluate coeffs witness = .ok x)
    (d : LinearExpression) :
    (e + d).evaluate coeffs witness = (d.evaluate coeffs witness).map (x + ·) := by
  rw [evaluate_add_eq, h]
  rfl

theorem evaluate_add_of_error {fault : Fault} (h : e.evaluate coeffs witness = .error fault)
    (d : LinearExpression) : (e + d).evaluate coeffs witness = .error fault := by
  rw [evaluate_add_eq, h]
  rfl

/-- Parts that all have a value add up to the sum of their values. -/
theorem evaluate_total_of_ok {parts : List LinearExpression} {values : List F}
    (h : List.Forall₂ (fun e x => e.evaluate coeffs witness = .ok x) parts values) :
    (total parts).evaluate coeffs witness = .ok values.sum := by
  induction h with
  | nil => rfl
  | cons he _ ih =>
      rw [total_cons, evaluate_add_of_ok he, ih, List.sum_cons]
      rfl

/-- The first part that has no value decides. -/
theorem evaluate_total_of_error {before : List LinearExpression} {fault : Fault}
    (hbefore : ∀ d ∈ before, ∃ x, d.evaluate coeffs witness = .ok x)
    (he : e.evaluate coeffs witness = .error fault) (after : List LinearExpression) :
    (total (before ++ e :: after)).evaluate coeffs witness = .error fault := by
  induction before with
  | nil => exact (congrArg _ (total_cons e after)).trans (evaluate_add_of_error he _)
  | cons d rest ih =>
      obtain ⟨⟨x, hx⟩, hrest⟩ := List.forall_mem_cons.mp hbefore
      rw [List.cons_append, total_cons, evaluate_add_of_ok hx, ih hrest]
      rfl

/-! ## When there is a value -/

/-- An expression has a value exactly if all its terms have one, and then it is their sum. -/
theorem evaluate_eq_ok_iff {x : F} :
    e.evaluate coeffs witness = .ok x ↔
      (∀ t ∈ e.terms, t.HasValue coeffs witness.size) ∧ x = e.value coeffs witness := by
  cases hoffender : Term.offender? coeffs witness.size e.terms with
  | none =>
      rw [evaluate_of_hasValue hoffender, Except.ok.injEq, eq_comm]
      exact (and_iff_right (Term.offender?_eq_none_iff.mp hoffender)).symm
  | some t =>
      rw [evaluate_of_offender hoffender]
      constructor
      · intro h
        cases h
      · rintro ⟨hvalue, -⟩
        rw [Term.offender?_eq_none_iff.mpr hvalue] at hoffender
        cases hoffender

/-- A fault is that of the first term without a value, where an unknown coefficient goes before a
wire that the witness lacks. -/
theorem evaluate_eq_error_iff {fault : Fault} :
    e.evaluate coeffs witness = .error fault ↔
      ∃ before t after, e.terms = before ++ t :: after ∧
        (∀ u ∈ before, u.HasValue coeffs witness.size) ∧
        ((coeffs.size ≤ t.coeff.index ∧ fault = .unknownCoeff t.coeff) ∨
          (t.coeff.index < coeffs.size ∧ witness.size ≤ t.wire.index ∧
            fault = .undeclaredWire t.wire witness.size)) := by
  constructor
  · intro h
    cases hoffender : Term.offender? coeffs witness.size e.terms with
    | none =>
        rw [evaluate_of_hasValue hoffender] at h
        cases h
    | some t =>
        rw [evaluate_of_offender hoffender] at h
        cases h
        obtain ⟨ht, before, after, hterms, hbefore⟩ := Term.offender?_eq_some_iff.mp hoffender
        exact ⟨before, t, after, hterms, hbefore, Term.fault_iff.mp ⟨ht, rfl⟩⟩
  · rintro ⟨before, t, after, hterms, hbefore, hlacks⟩
    obtain ⟨ht, rfl⟩ := Term.fault_iff.mpr hlacks
    exact evaluate_of_offender
      (Term.offender?_eq_some_iff.mpr ⟨ht, before, after, hterms, hbefore⟩)

/-- The values in a witness make no difference to a fault, only their number does. -/
theorem evaluate_eq_error_congr (hsize : u.size = v.size) {fault : Fault} :
    e.evaluate coeffs u = .error fault ↔ e.evaluate coeffs v = .error fault := by
  rw [evaluate_eq_error_iff, evaluate_eq_error_iff, hsize]

end LinearExpression

/-! ## Combined witnesses -/

theorem size_combine (a b : F) (hsize : u.size = v.size) : (combine a b u v).size = u.size := by
  rw [combine, Array.size_zipWith, ← hsize, Nat.min_self]

theorem Term.value_combine (a b : F) (hsize : u.size = v.size) (t : Term) :
    t.value coeffs (combine a b u v) = a * t.value coeffs u + b * t.value coeffs v := by
  have hwire : (combine a b u v)[t.wire.index]?.getD 0 =
      a * u[t.wire.index]?.getD 0 + b * v[t.wire.index]?.getD 0 := by
    rw [combine, Array.getElem?_zipWith]
    by_cases hlt : t.wire.index < u.size
    · have hlt' : t.wire.index < v.size := hsize ▸ hlt
      rw [Array.getElem?_eq_getElem hlt, Array.getElem?_eq_getElem hlt']
      rfl
    · -- past the end all three have no value, and count as zero
      have hge' : v.size ≤ t.wire.index := by omega
      rw [Array.getElem?_eq_none (Nat.le_of_not_lt hlt), Array.getElem?_eq_none hge']
      simp
  rw [value, value, value, hwire]
  ring

namespace LinearExpression

variable {e : LinearExpression}

theorem value_combine (a b : F) (hsize : u.size = v.size) (e : LinearExpression) :
    e.value coeffs (combine a b u v) = a * e.value coeffs u + b * e.value coeffs v := by
  unfold value
  induction e.terms with
  | nil => simp
  | cons t rest ih =>
      rw [List.map_cons, List.sum_cons, ih, Term.value_combine a b hsize, List.map_cons,
        List.sum_cons, List.map_cons, List.sum_cons]
      ring

/-- Where an expression has a value, this is linear in the witness. -/
theorem evaluate_combine (a b : F) (hsize : u.size = v.size) {x : F}
    (h : e.evaluate coeffs u = .ok x) :
    ∃ y, e.evaluate coeffs v = .ok y ∧
      e.evaluate coeffs (combine a b u v) = .ok (a * x + b * y) := by
  obtain ⟨hvalue, rfl⟩ := evaluate_eq_ok_iff.mp h
  refine ⟨e.value coeffs v, evaluate_eq_ok_iff.mpr ⟨hsize ▸ hvalue, rfl⟩, ?_⟩
  refine evaluate_eq_ok_iff.mpr ⟨?_, (value_combine a b hsize e).symm⟩
  rwa [size_combine a b hsize]

/-! ## Evaluation as a whole -/

/-- Evaluation takes sums to sums. A total has the sum of the values of its parts, or the fault of
the first part that has none. A part has a value exactly if all its terms do, and otherwise the
fault of the first of them that lacks its coefficient or the value on its wire. A fault depends on
no value of the witness, and a value depends on them linearly. -/
theorem evaluation_linear (coeffs : CoeffTable F) :
    (∀ (witness : Array F) (parts : List LinearExpression),
      (∀ values, List.Forall₂ (fun e x => e.evaluate coeffs witness = .ok x) parts values →
        (total parts).evaluate coeffs witness = .ok values.sum) ∧
      ∀ before e after fault, parts = before ++ e :: after →
        (∀ d ∈ before, ∃ x, d.evaluate coeffs witness = .ok x) →
        e.evaluate coeffs witness = .error fault →
        (total parts).evaluate coeffs witness = .error fault) ∧
    (∀ (witness : Array F) (e : LinearExpression),
      (∀ x, e.evaluate coeffs witness = .ok x ↔
        (∀ t ∈ e.terms, t.HasValue coeffs witness.size) ∧
          x = (e.terms.map (Term.value coeffs witness)).sum) ∧
      ∀ fault, e.evaluate coeffs witness = .error fault ↔
        ∃ before t after, e.terms = before ++ t :: after ∧
          (∀ u ∈ before, u.HasValue coeffs witness.size) ∧
          ((coeffs.size ≤ t.coeff.index ∧ fault = .unknownCoeff t.coeff) ∨
            (t.coeff.index < coeffs.size ∧ witness.size ≤ t.wire.index ∧
              fault = .undeclaredWire t.wire witness.size))) ∧
    ∀ (u v : Array F) (e : LinearExpression), u.size = v.size →
      (∀ fault, e.evaluate coeffs u = .error fault ↔ e.evaluate coeffs v = .error fault) ∧
      ∀ a b x, e.evaluate coeffs u = .ok x →
        ∃ y, e.evaluate coeffs v = .ok y ∧
          e.evaluate coeffs (combine a b u v) = .ok (a * x + b * y) := by
  refine ⟨fun witness parts => ⟨fun values => evaluate_total_of_ok, ?_⟩,
    fun witness e => ⟨fun x => evaluate_eq_ok_iff, fun fault => evaluate_eq_error_iff⟩, ?_⟩
  · rintro before e after fault rfl hbefore he
    exact evaluate_total_of_error hbefore he after
  · intro u v e hsize
    exact ⟨fun fault => evaluate_eq_error_congr hsize,
      fun a b x hx => evaluate_combine a b hsize hx⟩

/-- A table that holds `3` besides the reserved coefficients. -/
def threeTable : CoeffTable (Residue 17) := ⟨#[⟨3, by decide⟩]⟩

/-- The expression `3 * x - v`. -/
def differenceExpression : LinearExpression := ⟨[⟨⟨4⟩, ⟨1⟩⟩, ⟨.minusOne, ⟨2⟩⟩]⟩

/-- The expression `2`. -/
def constantExpression : LinearExpression := ⟨[⟨.two, .one⟩]⟩

/-- An unknown coefficient on a wire that the witnesses below lack. -/
def unknownExpression : LinearExpression := ⟨[⟨.one, .one⟩, ⟨⟨9⟩, ⟨7⟩⟩]⟩

theorem evaluation_linear_mixed :
    (total [differenceExpression, constantExpression]).evaluate threeTable
        #[1, .ofNat 5, .ofNat 4] = .ok (.ofNat 13) ∧
      (total [constantExpression, unknownExpression, ⟨[⟨.one, ⟨7⟩⟩]⟩]).evaluate threeTable
        #[1, .ofNat 5, .ofNat 4] = .error (.unknownCoeff ⟨9⟩) ∧
      unknownExpression.evaluate threeTable #[0, 0, 0] = .error (.unknownCoeff ⟨9⟩) ∧
      ∃ y, differenceExpression.evaluate threeTable #[1, .ofNat 2, .ofNat 3] = .ok y ∧
        differenceExpression.evaluate threeTable (combine (.ofNat 2) (.ofNat 5)
          #[1, .ofNat 5, .ofNat 4] #[1, .ofNat 2, .ofNat 3]) =
            .ok (.ofNat 2 * .ofNat 11 + .ofNat 5 * y) := by
  obtain ⟨hsums, hparts, hwitnesses⟩ := evaluation_linear threeTable
  have hunknown : unknownExpression.evaluate threeTable #[1, .ofNat 5, .ofNat 4] =
      .error (.unknownCoeff ⟨9⟩) :=
    ((hparts _ unknownExpression).2 _).mpr
      ⟨[⟨.one, .one⟩], ⟨⟨9⟩, ⟨7⟩⟩, [], rfl, by decide, .inl ⟨by decide, rfl⟩⟩
  refine ⟨?_, ?_, ?_, ?_⟩
  · have hvalues : List.Forall₂
        (fun e x => e.evaluate threeTable #[1, .ofNat 5, .ofNat 4] = .ok x)
        [differenceExpression, constantExpression] [.ofNat 11, .ofNat 2] :=
      .cons (by decide) (.cons (by decide) .nil)
    exact (hsums _ _).1 _ hvalues
  · refine (hsums _ _).2 [constantExpression] unknownExpression _ _ rfl ?_ hunknown
    intro d hd
    rw [List.mem_singleton.mp hd]
    exact ⟨.ofNat 2, by decide⟩
  · exact ((hwitnesses #[1, .ofNat 5, .ofNat 4] _ _ rfl).1 _).mp hunknown
  · have hvalue : differenceExpression.evaluate threeTable #[1, .ofNat 5, .ofNat 4] =
        .ok (.ofNat 11) := by decide
    exact (hwitnesses #[1, .ofNat 5, .ofNat 4] #[1, .ofNat 2, .ofNat 3] _ rfl).2 _ _ _ hvalue

end LinearExpression

end RankOne

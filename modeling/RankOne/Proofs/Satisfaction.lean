import RankOne.Proofs.Evaluation
import RankOne.Proofs.ResidueField
import RankOne.Proofs.Storage
import RankOne.System.Witness

/-!
# What a witness check comes to

A check looks at the number of values, then at the constant one, and then goes by the first
constraint that the witness does not meet, in the order in which they were stored
(`System.Outcome`, `System.checkWitness_eq_iff`). `System.checkWitness_exact` says of each outcome
when it comes about, for the constraints and the sources that the calls of a run have handed over.
-/

namespace RankOne

/-- All terms of a constraint have a value, and these meet its equation. -/
structure Constraint.Met {F : Type} [Field F] (coeffs : CoeffTable F) (witness : Array F)
    (c : Constraint) : Prop where
  hasValue : ∀ t ∈ c.terms, t.HasValue coeffs witness.size
  equation : c.Equation coeffs witness

namespace System

variable {F : Type} [Field F]

/-- Either all of some constraints are met, or one of them is the first that is not. -/
theorem all_met_or_first (es : List Entry) (coeffs : CoeffTable F) (witness : Array F) :
    (∀ e ∈ es, e.constraint.Met coeffs witness) ∨
      ∃ pre e post, es = pre ++ e :: post ∧ (∀ x ∈ pre, x.constraint.Met coeffs witness) ∧
        ¬ e.constraint.Met coeffs witness := by
  induction es with
  | nil => exact .inl fun _ he => absurd he List.not_mem_nil
  | cons e es ih =>
      by_cases he : e.constraint.Met coeffs witness
      · rcases ih with hall | ⟨pre, x, post, rfl, hpre, hx⟩
        · exact .inl (List.forall_mem_cons.mpr ⟨he, hall⟩)
        · exact .inr ⟨e :: pre, x, post, rfl, List.forall_mem_cons.mpr ⟨he, hpre⟩, hx⟩
      · exact .inr ⟨[], e, es, rfl, fun _ h => absurd h List.not_mem_nil, he⟩

theorem holds_eq_ok_true [DecidableEq F] {coeffs : CoeffTable F} {witness : Array F}
    {c : Constraint} (h : c.Met coeffs witness) : c.holds coeffs witness = .ok true := by
  rw [Constraint.holds_of_hasValue h.hasValue, decide_eq_true h.equation]

variable [ToString F] {s : System F} {witness : Array F}

/-! ## Violations -/

/-- The fault that goes with a constraint which a witness does not meet: that of its first term
without a value, where an unknown coefficient goes before an undeclared wire, and otherwise that its
equation fails. -/
inductive Violation (s : System F) (witness : Array F) (cid : Nat) (e : Entry) : Fault → Prop
  | unknownCoeff {before t after} : e.constraint.terms = before ++ t :: after →
      (∀ u ∈ before, u.HasValue s.coeffs s.layout.wireCount) →
      s.coeffs.size ≤ t.coeff.index → Violation s witness cid e (.unknownCoeff t.coeff)
  | undeclaredWire {before t after} : e.constraint.terms = before ++ t :: after →
      (∀ u ∈ before, u.HasValue s.coeffs s.layout.wireCount) →
      t.coeff.index < s.coeffs.size → s.layout.wireCount ≤ t.wire.index →
      Violation s witness cid e (.undeclaredWire t.wire s.layout.wireCount)
  | unsatisfied : (∀ t ∈ e.constraint.terms, t.HasValue s.coeffs s.layout.wireCount) →
      ¬ e.constraint.Equation s.coeffs witness →
      Violation s witness cid e (.unsatisfied cid (e.constraint.render s.naming) e.source)

/-- A constraint that is not met comes with a fault. -/
theorem exists_violation (hsize : witness.size = s.layout.wireCount) (cid : Nat) {e : Entry}
    (h : ¬ e.constraint.Met s.coeffs witness) : ∃ fault, s.Violation witness cid e fault := by
  cases hoffender : Term.offender? s.coeffs witness.size e.constraint.terms with
  | none =>
      have hvalue := Term.offender?_eq_none_iff.mp hoffender
      exact ⟨_, .unsatisfied (hsize ▸ hvalue) fun hequation => h ⟨hvalue, hequation⟩⟩
  | some t =>
      obtain ⟨ht, before, after, hterms, hbefore⟩ := Term.offender?_eq_some_iff.mp hoffender
      rw [hsize] at ht hbefore
      by_cases hcoeff : t.coeff.index < s.coeffs.size
      · have hwire : s.layout.wireCount ≤ t.wire.index :=
          Nat.le_of_not_lt fun hlt => ht ⟨hcoeff, hlt⟩
        exact ⟨_, .undeclaredWire hterms hbefore hcoeff hwire⟩
      · exact ⟨_, .unknownCoeff hterms hbefore (by omega)⟩

variable [DecidableEq F]

/-- A constraint that is not met stops a check with its fault. -/
theorem Violation.checkEntries {cid : Nat} {e : Entry} {fault : Fault}
    (h : s.Violation witness cid e fault) (hsize : witness.size = s.layout.wireCount)
    (post : List Entry) : s.checkEntries witness cid (e :: post) = .error fault := by
  have hoffender : ∀ {before t after}, e.constraint.terms = before ++ t :: after →
      (∀ u ∈ before, u.HasValue s.coeffs s.layout.wireCount) →
      ¬ t.HasValue s.coeffs s.layout.wireCount →
      e.constraint.holds s.coeffs witness = .error (t.fault s.coeffs s.layout.wireCount) := by
    intro before t after hterms hbefore ht
    rw [← hsize] at hbefore ht ⊢
    exact Constraint.holds_of_offender
      (Term.offender?_eq_some_iff.mpr ⟨ht, before, after, hterms, hbefore⟩)
  cases h with
  | unknownCoeff hterms hbefore hcoeff =>
      rw [System.checkEntries, hoffender hterms hbefore fun ht => absurd ht.1 (by omega),
        Term.fault, if_neg (by omega)]
  | undeclaredWire hterms hbefore hcoeff hwire =>
      rw [System.checkEntries, hoffender hterms hbefore fun ht => absurd ht.2 (by omega),
        Term.fault, if_pos hcoeff]
  | unsatisfied hvalue hequation =>
      rw [← hsize] at hvalue
      rw [System.checkEntries, Constraint.holds_of_hasValue hvalue, decide_eq_false hequation]

/-- Constraints that are met do not stop a check. -/
theorem checkEntries_append {pre : List Entry} (cid : Nat) (rest : List Entry)
    (h : ∀ e ∈ pre, e.constraint.Met s.coeffs witness) :
    s.checkEntries witness cid (pre ++ rest) = s.checkEntries witness (cid + pre.length) rest := by
  induction pre generalizing cid with
  | nil => rfl
  | cons e pre ih =>
      obtain ⟨he, hpre⟩ := List.forall_mem_cons.mp h
      simp only [List.cons_append, checkEntries, holds_eq_ok_true he]
      rw [ih (cid + 1) hpre, List.length_cons, Nat.add_right_comm, Nat.add_assoc]

/-! ## Outcomes -/

omit [DecidableEq F] in
/-- What a check may come to. -/
inductive Outcome (s : System F) (witness : Array F) : Except Fault Unit → Prop
  | length : witness.size ≠ s.layout.wireCount →
      Outcome s witness (.error (.witnessLength s.layout.wireCount witness.size))
  | one : witness.size = s.layout.wireCount → witness[0]? ≠ some 1 →
      Outcome s witness (.error .oneWireNotOne)
  | met : witness.size = s.layout.wireCount → witness[0]? = some 1 →
      (∀ e ∈ s.entries.toList, e.constraint.Met s.coeffs witness) → Outcome s witness (.ok ())
  | violated {pre e post fault} : witness.size = s.layout.wireCount → witness[0]? = some 1 →
      s.entries.toList = pre ++ e :: post → (∀ x ∈ pre, x.constraint.Met s.coeffs witness) →
      s.Violation witness pre.length e fault → Outcome s witness (.error fault)

/-- The check comes to every outcome that the witness allows, so it allows one only. -/
theorem Outcome.checkWitness {result : Except Fault Unit} (h : s.Outcome witness result) :
    s.checkWitness witness = result := by
  unfold System.checkWitness
  cases h with
  | length hsize => rw [if_pos hsize]
  | one hsize hone => rw [if_neg (by simpa using hsize), if_pos hone]
  | met hsize hone hall =>
      have hend := s.checkEntries_append 0 [] hall
      rw [List.append_nil] at hend
      rw [if_neg (by simpa using hsize), if_neg (by simpa using hone), hend]
      rfl
  | violated hsize hone hsplit hpre hviolation =>
      rw [if_neg (by simpa using hsize), if_neg (by simpa using hone), hsplit,
        checkEntries_append 0 _ hpre, Nat.zero_add, hviolation.checkEntries hsize]

omit [DecidableEq F] in
/-- Every witness allows an outcome. -/
theorem exists_outcome (s : System F) (witness : Array F) :
    ∃ result, s.Outcome witness result := by
  by_cases hsize : witness.size = s.layout.wireCount
  · by_cases hone : witness[0]? = some 1
    · rcases all_met_or_first s.entries.toList s.coeffs witness with
        hall | ⟨pre, e, post, hsplit, hpre, he⟩
      · exact ⟨_, .met hsize hone hall⟩
      · obtain ⟨fault, hviolation⟩ := exists_violation hsize pre.length he
        exact ⟨_, .violated hsize hone hsplit hpre hviolation⟩
    · exact ⟨_, .one hsize hone⟩
  · exact ⟨_, .length hsize⟩

/-- A check comes to the outcome that the witness allows. -/
theorem checkWitness_eq_iff {result : Except Fault Unit} :
    s.checkWitness witness = result ↔ s.Outcome witness result := by
  constructor
  · rintro rfl
    obtain ⟨result, houtcome⟩ := s.exists_outcome witness
    rw [houtcome.checkWitness]
    exact houtcome
  · exact Outcome.checkWitness

/-! ### When each outcome comes about -/

theorem checkWitness_eq_witnessLength_iff {expected actual : Nat} :
    s.checkWitness witness = .error (.witnessLength expected actual) ↔
      witness.size ≠ s.layout.wireCount ∧ expected = s.layout.wireCount ∧
        actual = witness.size := by
  rw [checkWitness_eq_iff]
  constructor
  · intro h
    cases h with
    | length hsize => exact ⟨hsize, rfl, rfl⟩
    | violated hsize hone hsplit hpre hviolation => cases hviolation
  · rintro ⟨hsize, rfl, rfl⟩
    exact .length hsize

theorem checkWitness_eq_oneWireNotOne_iff :
    s.checkWitness witness = .error .oneWireNotOne ↔
      witness.size = s.layout.wireCount ∧ witness[0]? ≠ some 1 := by
  rw [checkWitness_eq_iff]
  constructor
  · intro h
    cases h with
    | one hsize hone => exact ⟨hsize, hone⟩
    | violated hsize hone hsplit hpre hviolation => cases hviolation
  · rintro ⟨hsize, hone⟩
    exact .one hsize hone

theorem checkWitness_eq_ok_iff :
    s.checkWitness witness = .ok () ↔ witness.size = s.layout.wireCount ∧
      witness[0]? = some 1 ∧ ∀ e ∈ s.entries.toList, e.constraint.Met s.coeffs witness := by
  rw [checkWitness_eq_iff]
  constructor
  · intro h
    cases h with
    | met hsize hone hall => exact ⟨hsize, hone, hall⟩
  · rintro ⟨hsize, hone, hall⟩
    exact .met hsize hone hall

/-- The first constraint that is not met decides. -/
theorem checkWitness_eq_error_iff_violation {pre post : List Entry} {e : Entry} {fault : Fault}
    (hsize : witness.size = s.layout.wireCount) (hone : witness[0]? = some 1)
    (hsplit : s.entries.toList = pre ++ e :: post)
    (hpre : ∀ x ∈ pre, x.constraint.Met s.coeffs witness)
    (he : ¬ e.constraint.Met s.coeffs witness) :
    s.checkWitness witness = .error fault ↔ s.Violation witness pre.length e fault := by
  have herror : ∀ {fault}, s.Violation witness pre.length e fault →
      s.checkWitness witness = .error fault :=
    fun h => (Outcome.violated hsize hone hsplit hpre h).checkWitness
  refine ⟨fun h => ?_, herror⟩
  -- the check has one result, so this fault is the one of the violation
  obtain ⟨fault', hfault⟩ := exists_violation hsize pre.length he
  rw [herror hfault] at h
  cases h
  exact hfault

/-- A witness has the wrong number of values, or does not carry one on the constant-one wire, or it
meets all constraints, or the first constraint that it does not meet decides: with the fault of its
first term without a value, or with its id, its text and the source that it was stored with. -/
theorem checkWitness_exact (config : Config) (calls : List (Call F)) (witness : Array F) :
    let s := (empty config : System F).run calls
    let stored := (empty config : System F).stored calls
    (∀ expected actual, s.checkWitness witness = .error (.witnessLength expected actual) ↔
      witness.size ≠ s.layout.wireCount ∧ expected = s.layout.wireCount ∧ actual = witness.size) ∧
    (s.checkWitness witness = .error .oneWireNotOne ↔
      witness.size = s.layout.wireCount ∧ witness[0]? ≠ some 1) ∧
    (s.checkWitness witness = .ok () ↔ witness.size = s.layout.wireCount ∧
      witness[0]? = some 1 ∧ ∀ e ∈ stored, e.constraint.Met s.coeffs witness) ∧
    (witness.size = s.layout.wireCount → witness[0]? = some 1 →
      ∀ pre e post, stored = pre ++ e :: post →
        (∀ x ∈ pre, x.constraint.Met s.coeffs witness) → ¬ e.constraint.Met s.coeffs witness →
        (∃ fault, s.Violation witness pre.length e fault) ∧
        ∀ fault, s.checkWitness witness = .error fault ↔
          s.Violation witness pre.length e fault) := by
  intro s stored
  have hstored : s.entries.toList = stored := entries_run_empty config calls
  refine ⟨fun _ _ => checkWitness_eq_witnessLength_iff, checkWitness_eq_oneWireNotOne_iff, ?_, ?_⟩
  · rw [checkWitness_eq_ok_iff, hstored]
  · intro hsize hone pre e post hsplit hpre he
    rw [← hstored] at hsplit
    exact ⟨exists_violation hsize pre.length he,
      fun fault => checkWitness_eq_error_iff_violation hsize hone hsplit hpre he⟩

/-- The constraint `x * x = v`. -/
def squareEntry : Entry :=
  ⟨⟨⟨[⟨.one, ⟨1⟩⟩]⟩, ⟨[⟨.one, ⟨1⟩⟩]⟩, ⟨[⟨.one, ⟨2⟩⟩]⟩⟩, none⟩

/-- The constraint `2x = v`, with a source. -/
def doubleEntry : Entry :=
  ⟨⟨⟨[⟨.two, ⟨1⟩⟩]⟩, ⟨[⟨.one, .one⟩]⟩, ⟨[⟨.one, ⟨2⟩⟩]⟩⟩, some ⟨"2x == v", []⟩⟩

/-- A constraint with an unknown coefficient on an undeclared wire, after a term with the
coefficient `0`. -/
def strangeEntry : Entry := ⟨⟨⟨[⟨.zero, .one⟩, ⟨⟨9⟩, ⟨7⟩⟩]⟩, {}, {}⟩, none⟩

/-- A run that stores the three of them. -/
def doubleRun : List (Call (Residue 17)) :=
  [.declarePublic "x", .declareInternal] ++
    [squareEntry, doubleEntry, strangeEntry].map fun e => .append e.constraint e.source

theorem checkWitness_exact_double :
    ((empty {}).run doubleRun).checkWitness #[1, .ofNat 3, .ofNat 9] =
        .error (.unsatisfied 1 "2⋅x ⋅ 1 == v2" (some ⟨"2x == v", []⟩)) ∧
      ((empty {}).run doubleRun).checkWitness #[1, .ofNat 2, .ofNat 4] =
        .error (.unknownCoeff ⟨9⟩) := by
  have hstored : (empty {}).stored doubleRun = [squareEntry, doubleEntry, strangeEntry] := by
    decide
  constructor
  · obtain ⟨-, -, -, hfirst⟩ := checkWitness_exact {} doubleRun #[1, .ofNat 3, .ofNat 9]
    have hpre : ∀ x ∈ [squareEntry], x.constraint.Met ((empty {}).run doubleRun).coeffs
        #[1, .ofNat 3, .ofNat 9] := by
      intro x hx
      rw [List.mem_singleton.mp hx]
      exact ⟨by decide, by decide⟩
    have hequation : ¬ doubleEntry.constraint.Equation ((empty {}).run doubleRun).coeffs
        #[1, .ofNat 3, .ofNat 9] := by
      decide
    have htext : doubleEntry.constraint.render ((empty {}).run doubleRun).naming =
        "2⋅x ⋅ 1 == v2" := by
      cbv
    have h := ((hfirst (by decide) (by decide) [squareEntry] doubleEntry [strangeEntry] hstored
      hpre fun hmet => hequation hmet.equation).2 _).mpr (.unsatisfied (by decide) hequation)
    rw [htext] at h
    exact h
  · obtain ⟨-, -, -, hfirst⟩ := checkWitness_exact {} doubleRun #[1, .ofNat 2, .ofNat 4]
    have hpre : ∀ x ∈ [squareEntry, doubleEntry],
        x.constraint.Met ((empty {}).run doubleRun).coeffs #[1, .ofNat 2, .ofNat 4] := by
      intro x hx
      rcases List.mem_pair.mp hx with rfl | rfl <;> exact ⟨by decide, by decide⟩
    have hstrange : ¬ strangeEntry.constraint.Met ((empty {}).run doubleRun).coeffs
        #[1, .ofNat 2, .ofNat 4] :=
      fun hmet => absurd hmet.hasValue (by decide)
    have hterms : strangeEntry.constraint.terms = [⟨.zero, .one⟩] ++ ⟨⟨9⟩, ⟨7⟩⟩ :: [] := rfl
    exact ((hfirst (by decide) (by decide) [squareEntry, doubleEntry] strangeEntry [] hstored hpre
      hstrange).2 _).mpr (.unknownCoeff hterms (by decide) (by decide))

end System

end RankOne

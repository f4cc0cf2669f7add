import RankOne.Proofs.Declarations
import RankOne.Proofs.Interning
import RankOne.Proofs.Satisfaction

/-!
# Verdicts about growing systems

The wires of a run are those of its declarations, and its coefficients those that were handed over
(`System.layout_run`, `System.coeffs_run`); an interner that is handed the same coefficients holds
them as well (`System.represents_coeffs_run`). So calls add at the end of what is there
(`System.Continues`), and terms that have a value and a text keep both while the system grows and
the witness gets longer. A constraint that fails goes on to fail with the same text, and a witness
of the larger system is one of the smaller, as far as that can tell (`System.verdicts_persist`).
-/

namespace RankOne

/-! ## Texts -/

theorem Term.render_congr {n m : Naming} {t : Term} (hcoeff : n.coeff t.coeff = m.coeff t.coeff)
    (hwire : n.wire t.wire = m.wire t.wire) : t.render n = t.render m := by
  unfold Term.render
  rw [hcoeff, hwire]

theorem LinearExpression.render_congr {n m : Naming} {e : LinearExpression}
    (h : ∀ t ∈ e.terms, t.render n = t.render m) : e.render n = e.render m := by
  rw [render, render, List.map_congr_left h]

theorem Constraint.render_congr {n m : Naming} {c : Constraint}
    (h : ∀ t ∈ c.terms, t.render n = t.render m) : c.render n = c.render m := by
  obtain ⟨hleft, hright, houtput⟩ := forall_mem_terms.mp h
  rw [render, render, LinearExpression.render_congr hleft, LinearExpression.render_congr hright,
    LinearExpression.render_congr houtput]

/-! ## What calls declare and intern -/

/-- The declaration that a call makes. -/
def Call.declaration? {F : Type} : Call F → Option Declaration
  | .declarePublic name => some (.publicInput name)
  | .declareSecret name => some (.secretInput name)
  | .declareInternal => some .internal
  | _ => none

/-- The coefficient that a call interns. -/
def Call.coefficient? {F : Type} : Call F → Option F
  | .intern value => some value
  | .term value _ => some value
  | _ => none

namespace System

variable {F : Type}

/-- Leveling a constraint changes the schedule only. -/
theorem exists_level_eq (s : System F) (cid : Nat) (reads : List Wire) :
    ∃ schedule, (s.level cid reads).2 = { s with schedule := schedule } := by
  rcases s.level_cases cid reads with ⟨fault, h⟩ | ⟨-, -, v, -, h⟩ <;> exact ⟨_, by rw [h]⟩

/-- To store and level a constraint changes the constraints and the schedule only. -/
theorem exists_appendLeveled_eq (s : System F) (c : Constraint) (source : Option Provenance) :
    ∃ entries schedule, (s.appendLeveled c source).2 =
      { s with entries := entries, schedule := schedule } := by
  by_cases hwires : ∀ w ∈ c.wires, w.index < s.layout.wireCount
  · rw [appendLeveled_of_declared source hwires]
    exact ⟨_, (s.append c source).2.exists_level_eq s.entries.size c.wires⟩
  · obtain ⟨w, hw⟩ := Layout.exists_firstUndeclared hwires
    rw [appendLeveled_of_undeclared source hw]
    exact ⟨_, _, rfl⟩

/-- A declaration changes the layout as it does by itself, and nothing else. -/
theorem declare_snd (s : System F) (result : Except Fault (Wire × Layout)) :
    (s.declare result).2 = { s with layout := (s.layout.settle result).2 } := by
  cases result <;> rfl

variable [Zero F] [One F] [Add F] [Neg F]

section Calls

variable [DecidableEq F]

/-- Wires and coefficients are changed by declarations and by new coefficients alone. -/
theorem layout_coeffs_call (s : System F) (c : Call F) :
    (s.call c).2.layout = s.layout.declareAll c.declaration?.toList ∧
      (s.call c).2.coeffs = (s.coeffs.internAll c.coefficient?.toList).2 := by
  cases c with
  | declarePublic name =>
      have hafter : (s.call (.declarePublic name)).2 =
          { s with layout := (s.layout.declare (.publicInput name)).2 } := s.declare_snd _
      rw [hafter]
      exact ⟨rfl, rfl⟩
  | declareSecret name =>
      have hafter : (s.call (.declareSecret name)).2 =
          { s with layout := (s.layout.declare (.secretInput name)).2 } := s.declare_snd _
      rw [hafter]
      exact ⟨rfl, rfl⟩
  | declareInternal | intern | term | register | append => exact ⟨rfl, rfl⟩
  | appendLeveled constraint source =>
      obtain ⟨entries, schedule, hafter⟩ := s.exists_appendLeveled_eq constraint source
      rw [call, reply, hafter]
      exact ⟨rfl, rfl⟩
  | level cid reads =>
      obtain ⟨schedule, hafter⟩ := s.exists_level_eq cid reads
      rw [call, reply, hafter]
      exact ⟨rfl, rfl⟩

/-- The wires after some calls are those of the declarations among them. -/
theorem layout_run (s : System F) (calls : List (Call F)) :
    (s.run calls).layout = s.layout.declareAll (calls.filterMap Call.declaration?) := by
  induction calls generalizing s with
  | nil => rfl
  | cons c rest ih =>
      rw [run, ih, (s.layout_coeffs_call c).1, List.filterMap_cons]
      cases c.declaration? <;> rfl

/-- The coefficients after some calls are those that the calls have interned. -/
theorem coeffs_run (s : System F) (calls : List (Call F)) :
    (s.run calls).coeffs = (s.coeffs.internAll (calls.filterMap Call.coefficient?)).2 := by
  induction calls generalizing s with
  | nil => rfl
  | cons c rest ih =>
      rw [run, ih, (s.layout_coeffs_call c).2, List.filterMap_cons]
      cases c.coefficient? <;> rfl

/-- The coefficients of a run are those of an interner that was handed them in the same order, and
it gives the same id to the next one. -/
theorem represents_coeffs_run [Hashable F] (config : Config) (calls : List (Call F)) :
    let x := ((Interner.new : Interner F).internAll (calls.filterMap Call.coefficient?)).2
    x.Represents ((empty config).run calls).coeffs ∧
      ∀ c, (x.intern c).1 = (((empty config).run calls).intern c).1 := by
  intro x
  have hx : x.Represents ((empty config).run calls).coeffs := by
    rw [coeffs_run]
    exact (Interner.represents_internAll _).2
  exact ⟨hx, fun c => (hx.intern c).1⟩

end Calls

/-! ## Systems that go on from others -/

/-- One system holds what another does and possibly more, which stands after it: coefficients,
declared wires and constraints keep their places. -/
structure Continues (s t : System F) : Prop where
  values : s.coeffs.values <+: t.coeffs.values
  declarations : s.layout.declarations <+: t.layout.declarations
  entries : s.entries.toList <+: t.entries.toList

theorem continues_run [DecidableEq F] (s : System F) (calls : List (Call F)) :
    s.Continues (s.run calls) where
  values := by
    rw [coeffs_run]
    exact s.coeffs.prefix_values_internAll _
  declarations := by
    rw [layout_run, Layout.declarations_declareAll]
    exact List.prefix_append _ _
  entries := by
    rw [entries_run]
    exact List.prefix_append _ _

namespace Continues

variable {s t : System F}

theorem wireCount_le (h : s.Continues t) : s.layout.wireCount ≤ t.layout.wireCount := by
  rw [Layout.wireCount_eq, Layout.wireCount_eq]
  exact Nat.succ_le_succ h.declarations.length_le

theorem size_le (h : s.Continues t) : s.coeffs.size ≤ t.coeffs.size := by
  rw [← CoeffTable.length_values, ← CoeffTable.length_values]
  exact h.values.length_le

/-- A declared wire has the name that it had, or still has none. -/
theorem name?_eq (h : s.Continues t) {w : Wire} (hw : w.index < s.layout.wireCount) :
    t.layout.name? w = s.layout.name? w := by
  obtain ⟨more, hmore⟩ := h.declarations
  exact Layout.name?_of_declarations_eq hw hmore.symm

/-- An id stands for the coefficient that it stood for. -/
theorem get?_eq (h : s.Continues t) {id : CoeffId} (hid : id.index < s.coeffs.size) :
    t.coeffs.get? id = s.coeffs.get? id := by
  obtain ⟨more, hmore⟩ := h.values
  rw [← CoeffTable.length_values] at hid
  rw [CoeffTable.get?_eq_getElem?, CoeffTable.get?_eq_getElem?, ← hmore,
    List.getElem?_append_left hid]

theorem hasValue (h : s.Continues t) {term : Term} {m n : Nat} (hcount : m ≤ n)
    (hterm : term.HasValue s.coeffs m) : term.HasValue t.coeffs n :=
  ⟨Nat.lt_of_lt_of_le hterm.1 h.size_le, Nat.lt_of_lt_of_le hterm.2 hcount⟩

/-- The text of a constraint does not change. -/
theorem render_eq [ToString F] (h : s.Continues t) {c : Constraint}
    (hc : ∀ term ∈ c.terms, term.HasValue s.coeffs s.layout.wireCount) :
    c.render t.naming = c.render s.naming := by
  refine Constraint.render_congr fun term hmem => ?_
  obtain ⟨hcoeff, hwire⟩ := hc term hmem
  refine Term.render_congr ?_ ?_
  · show ((t.coeffs.get? term.coeff).map toString).getD term.coeff.label = _
    rw [h.get?_eq hcoeff]
    rfl
  · show (t.layout.name? term.wire).getD term.wire.label = _
    rw [h.name?_eq hwire]
    rfl

end Continues

end System

/-! ## Verdicts -/

namespace System

variable {F : Type} [Field F] {s t : System F} {u : Array F} {c : Constraint}

/-- A term keeps its value under a longer witness. -/
theorem Continues.value_eq (h : s.Continues t) {term : Term} (hterm : term.HasValue s.coeffs u.size)
    (more : Array F) : term.value t.coeffs (u ++ more) = term.value s.coeffs u := by
  rw [Term.value, Term.value, h.get?_eq hterm.1, Array.getElem?_append_left hterm.2]

theorem Continues.equation_iff (h : s.Continues t)
    (hc : ∀ term ∈ c.terms, term.HasValue s.coeffs u.size) (more : Array F) :
    c.Equation t.coeffs (u ++ more) ↔ c.Equation s.coeffs u :=
  Constraint.equation_iff_of_terms fun term hmem => h.value_eq (hc term hmem) more

theorem Continues.met (h : s.Continues t) (hc : c.Met s.coeffs u) (more : Array F) :
    c.Met t.coeffs (u ++ more) where
  hasValue term hmem := h.hasValue (by simp) (hc.hasValue term hmem)
  equation := (h.equation_iff hc.hasValue more).mpr hc.equation

variable [DecidableEq F] [ToString F]

/-- A constraint that fails goes on to fail first, with the same text. -/
theorem Continues.checkWitness_of_unsatisfied (h : s.Continues t) {more : Array F} {cid : Nat}
    {text : String} {source : Option Provenance}
    (hsize : (u ++ more).size = t.layout.wireCount)
    (hfail : s.checkWitness u = .error (.unsatisfied cid text source)) :
    t.checkWitness (u ++ more) = .error (.unsatisfied cid text source) := by
  cases checkWitness_eq_iff.mp hfail with
  | violated husize hone hsplit hpre hviolation =>
      cases hviolation with
      | unsatisfied hvalue hequation =>
          rename_i pre e post
          obtain ⟨added, hadded⟩ := h.entries
          have hsplit' : t.entries.toList = pre ++ e :: (post ++ added) := by
            rw [← hadded, hsplit, List.append_assoc, List.cons_append]
          have hone' : (u ++ more)[0]? = some 1 := by
            obtain ⟨hpos, -⟩ := Array.getElem?_eq_some_iff.mp hone
            rw [Array.getElem?_append_left hpos, hone]
          have hequation' : ¬ e.constraint.Equation t.coeffs (u ++ more) :=
            mt (h.equation_iff (husize ▸ hvalue) more).mp hequation
          have hviolation' : t.Violation (u ++ more) pre.length e _ :=
            .unsatisfied (fun term hmem => h.hasValue h.wireCount_le (hvalue term hmem)) hequation'
          rw [h.render_eq hvalue] at hviolation'
          exact (Outcome.violated hsize hone' hsplit' (fun x hx => h.met (hpre x hx) more)
            hviolation').checkWitness

/-- The first part of a witness that is accepted later is accepted, or the check stops at a term
that has no value yet. -/
theorem Continues.checkWitness_take (h : s.Continues t) {v : Array F}
    (hv : t.checkWitness v = .ok ()) :
    s.checkWitness (v.take s.layout.wireCount) = .ok () ∨
      ∃ c ∈ s.constraints, ∃ term ∈ c.terms, ¬ term.HasValue s.coeffs s.layout.wireCount ∧
        s.checkWitness (v.take s.layout.wireCount) =
          .error (term.fault s.coeffs s.layout.wireCount) := by
  obtain ⟨hvsize, hvone, -⟩ := checkWitness_eq_ok_iff.mp hv
  have hle : s.layout.wireCount ≤ v.size := hvsize ▸ h.wireCount_le
  have hpos : 0 < s.layout.wireCount :=
    Nat.lt_of_lt_of_le s.layout.inputCount_pos s.layout.inputCount_le_wireCount
  have hvsplit : v.take s.layout.wireCount ++ v.drop s.layout.wireCount = v := by
    simp [hle]
  have husize : (v.take s.layout.wireCount).size = s.layout.wireCount := by
    simp [hle]
  have huone : (v.take s.layout.wireCount)[0]? = some 1 := by
    rw [← hvsplit, Array.getElem?_append_left (husize.symm ▸ hpos)] at hvone
    exact hvone
  rcases all_met_or_first s.entries.toList s.coeffs (v.take s.layout.wireCount) with
    hall | ⟨pre, e, post, hsplit, hpre, he⟩
  · exact .inl (checkWitness_eq_ok_iff.mpr ⟨husize, huone, hall⟩)
  · obtain ⟨fault, hviolation⟩ := exists_violation husize pre.length he
    have hfault := (checkWitness_eq_error_iff_violation husize huone hsplit hpre he).mpr hviolation
    have hstored : e.constraint ∈ s.constraints := by
      simp [constraints, hsplit]
    cases hviolation with
    | unknownCoeff hterms hbefore hcoeff =>
        rename_i term after
        have hterm : term ∈ e.constraint.terms := by simp [hterms]
        refine .inr ⟨_, hstored, term, hterm, fun hvalue => absurd hvalue.1 (by omega), ?_⟩
        rw [hfault, Term.fault, if_neg (by omega)]
    | undeclaredWire hterms hbefore hcoeff hwire =>
        rename_i term after
        have hterm : term ∈ e.constraint.terms := by simp [hterms]
        refine .inr ⟨_, hstored, term, hterm, fun hvalue => absurd hvalue.2 (by omega), ?_⟩
        rw [hfault, Term.fault, if_pos hcoeff]
    | unsatisfied hvalue hequation =>
        -- the larger system would turn the witness down as well
        have hlater := h.checkWitness_of_unsatisfied (hvsplit.symm ▸ hvsize) hfault
        rw [hvsplit, hv] at hlater
        cases hlater

/-- Verdicts outlast what is added to a system. If a constraint is the first to fail, then it is so
for every continuation of the witness, and its id, its text and its source are the same. A witness
that a larger system accepts is accepted by the smaller one in its first part, unless the smaller
one does not know a coefficient or a wire that one of its constraints uses. -/
theorem verdicts_persist (s : System F) (calls : List (Call F)) :
    let t := s.run calls
    (∀ u more cid text source, (u ++ more).size = t.layout.wireCount →
      s.checkWitness u = .error (.unsatisfied cid text source) →
      t.checkWitness (u ++ more) = .error (.unsatisfied cid text source)) ∧
    ∀ v, t.checkWitness v = .ok () →
      (s.checkWitness (v.take s.layout.wireCount) = .ok () ∨
        (∃ id, s.checkWitness (v.take s.layout.wireCount) = .error (.unknownCoeff id)) ∨
        ∃ w, s.checkWitness (v.take s.layout.wireCount) =
          .error (.undeclaredWire w s.layout.wireCount)) ∧
      ((∀ c ∈ s.constraints, ∀ term ∈ c.terms, term.HasValue s.coeffs s.layout.wireCount) →
        s.checkWitness (v.take s.layout.wireCount) = .ok ()) := by
  intro t
  have h : s.Continues t := s.continues_run calls
  refine ⟨fun u more cid text source => h.checkWitness_of_unsatisfied, ?_⟩
  intro v hv
  rcases h.checkWitness_take hv with hok | ⟨c, hc, term, hterm, hnone, hfault⟩
  · exact ⟨.inl hok, fun _ => hok⟩
  · refine ⟨.inr ?_, fun hall => absurd (hall c hc term hterm) hnone⟩
    unfold Term.fault at hfault
    split at hfault
    · exact .inr ⟨_, hfault⟩
    · exact .inl ⟨_, hfault⟩

/-- The constraint `x * x = v`, of which the smaller system knows all wires. -/
def squareRun : List (Call (Residue 17)) :=
  [.declarePublic "x", .declareInternal, .append squareEntry.constraint none]

/-- The same constraint, stored before its wire is declared. -/
def earlyRun : List (Call (Residue 17)) :=
  [.declarePublic "x", .append squareEntry.constraint none]

/-- A constraint that fails goes on to fail with the same text when wires and coefficients are
added. What is accepted later was acceptable before, unless the wire of a constraint was still
missing. -/
theorem verdicts_persist_square :
    ((empty {}).run (doubleRun ++ [.declareInternal, .intern (.ofNat 5)])).checkWitness
        (#[1, .ofNat 3, .ofNat 9] ++ #[.ofNat 4]) =
        .error (.unsatisfied 1 "2⋅x ⋅ 1 == v2" (some ⟨"2x == v", []⟩)) ∧
      ((empty {}).run squareRun).checkWitness (#[1, .ofNat 3, .ofNat 9, .ofNat 4].take 3) =
        .ok () ∧
      ((empty {}).run (earlyRun ++ [.declareInternal])).checkWitness #[1, .ofNat 3, .ofNat 9] =
        .ok () ∧
      ((empty {}).run earlyRun).checkWitness #[1, .ofNat 3] =
        .error (.undeclaredWire ⟨2⟩ 2) := by
  obtain ⟨hlater, -⟩ :=
    verdicts_persist ((empty {}).run doubleRun) [.declareInternal, .intern (.ofNat 5)]
  obtain ⟨-, hbefore⟩ := verdicts_persist ((empty {}).run squareRun) [.declareInternal]
  have hfail : ((empty {}).run doubleRun).checkWitness #[1, .ofNat 3, .ofNat 9] =
      .error (.unsatisfied 1 "2⋅x ⋅ 1 == v2" (some ⟨"2x == v", []⟩)) := rfl
  have haccepted : (((empty {}).run squareRun).run [.declareInternal]).checkWitness
      #[1, .ofNat 3, .ofNat 9, .ofNat 4] = .ok () := rfl
  rw [run_append]
  exact ⟨hlater _ _ _ _ _ rfl hfail, (hbefore _ haccepted).2 (by decide), rfl, rfl⟩

end System

end RankOne

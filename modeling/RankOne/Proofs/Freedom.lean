import RankOne.Proofs.Coverage
import RankOne.Proofs.Evaluation
import RankOne.Proofs.ResidueField
import RankOne.System.Witness

/-!
# Free wires

A wire is free if no constraint has it in a term with a coefficient other than `0`
(`System.IsFree`). Such terms are worth nothing whatever the wire carries, because the id of `0` is
reserved. So the values on free wires have no say in a witness check
(`System.checkWitness_congr`), and what a report calls unconstrained is free indeed
(`System.reported_wires_free`).
-/

namespace RankOne

/-! ## Values that have no say -/

section Field

variable {F : Type} [Field F] {coeffs : CoeffTable F} {u v : Array F}

/-- The value of a zero term is `0` on any wire. -/
theorem Term.value_of_isZero {t : Term} (h : t.isZero = true) : t.value coeffs u = 0 := by
  have hzero : coeffs.get? t.coeff = some 0 := by
    rw [of_decide_eq_true h]
    rfl
  rw [Term.value, hzero, Option.getD_some, zero_mul]

theorem LinearExpression.value_congr {e : LinearExpression}
    (h : ∀ w ∈ e.nonzeroWires, u[w.index]? = v[w.index]?) :
    e.value coeffs u = e.value coeffs v := by
  have hterms : ∀ t ∈ e.terms, t.value coeffs u = t.value coeffs v := by
    intro t ht
    cases hzero : t.isZero with
    | true => rw [Term.value_of_isZero hzero, Term.value_of_isZero hzero]
    | false =>
        have hw : t.wire ∈ e.nonzeroWires :=
          List.mem_map.mpr ⟨t, List.mem_filter.mpr ⟨ht, by simp [hzero]⟩, rfl⟩
        rw [Term.value, Term.value, h t.wire hw]
  exact value_eq_of_terms hterms

namespace Constraint

variable {c : Constraint}

theorem equation_congr (h : ∀ w ∈ c.nonzeroWires, u[w.index]? = v[w.index]?) :
    c.Equation coeffs u ↔ c.Equation coeffs v := by
  simp only [nonzeroWires, List.mem_append, or_imp, forall_and] at h
  obtain ⟨⟨hleft, hright⟩, houtput⟩ := h
  rw [Equation, Equation, LinearExpression.value_congr hleft, LinearExpression.value_congr hright,
    LinearExpression.value_congr houtput]

/-- Which term has no value is a matter of ids alone, and the equation of values that agree. -/
theorem holds_congr [DecidableEq F] (hsize : u.size = v.size)
    (h : ∀ w ∈ c.nonzeroWires, u[w.index]? = v[w.index]?) :
    c.holds coeffs u = c.holds coeffs v := by
  cases hoffender : Term.offender? coeffs u.size c.terms with
  | some t =>
      rw [holds_of_offender hoffender, holds_of_offender (hsize ▸ hoffender), hsize]
  | none =>
      have hvalue := Term.offender?_eq_none_iff.mp hoffender
      rw [holds_of_hasValue hvalue, holds_of_hasValue (hsize ▸ hvalue)]
      exact congrArg _ (decide_eq_decide.mpr (equation_congr h))

end Constraint

end Field

namespace System

section

variable {F : Type} {s : System F} {w : Wire}

/-- A wire other than the constant one that occurs in no constraint, unless in terms with the
coefficient `0`. -/
def IsFree (s : System F) (w : Wire) : Prop :=
  1 ≤ w.index ∧ ∀ c ∈ s.constraints, w ∉ c.nonzeroWires

instance (s : System F) (w : Wire) : Decidable (s.IsFree w) := inferInstanceAs (Decidable (_ ∧ _))

theorem isFree_iff : s.IsFree w ↔ 1 ≤ w.index ∧ w ∉ s.constrainedWires := by
  simp only [IsFree, constrainedWires, List.mem_flatMap, not_exists, not_and]

/-! ## Reports -/

theorem mem_freeInputs : w ∈ s.freeInputs ↔ s.layout.isInput w = true ∧ s.IsFree w := by
  rw [freeInputs, List.mem_filter, Layout.mem_declaredInputs, Layout.isInput_iff, isFree_iff,
    decide_eq_true_eq]
  constructor
  · rintro ⟨⟨hpos, hlt⟩, hw⟩
    exact ⟨hlt, hpos, hw⟩
  · rintro ⟨hlt, hpos, hw⟩
    exact ⟨⟨hpos, hlt⟩, hw⟩

theorem pairwise_freeInputs (s : System F) :
    s.freeInputs.Pairwise fun u w => u.index < w.index := by
  refine List.Pairwise.filter _ ?_
  rw [Layout.declaredInputs, List.pairwise_map]
  exact List.pairwise_lt_range'

theorem mem_freeOutputs (hs : s.hints.Valid s.layout) :
    w ∈ s.freeOutputs ↔ (∃ h ∈ s.hints.hints, w ∈ h.outputs) ∧ s.IsFree w := by
  have hpos : w ∈ s.hints.hints.toList.flatMap Hint.outputs → 1 ≤ w.index := by
    intro hw
    have hinternal := hs.internal_of_mem_outputWires (hs.mem_outputWires_iff.mpr hw)
    have hinput : ¬ w.index < s.layout.inputCount := by
      simpa [Layout.isInput] using hinternal
    have hcount := s.layout.inputCount_pos
    omega
  rw [freeOutputs, Finset.mem_filter, List.mem_toFinset, isFree_iff]
  constructor
  · rintro ⟨hmem, hw⟩
    exact ⟨by simpa using hmem, hpos hmem, hw⟩
  · rintro ⟨hmem, -, hw⟩
    exact ⟨by simpa using hmem, hw⟩

/-- What a report may be. -/
inductive Finding (s : System F) : Report → Prop
  | noInputs : Finding s ⟨[], .error .noInputs⟩
  | undeclaredWire (w : Wire) : Finding s ⟨[], .error (.undeclaredWire w s.layout.wireCount)⟩
  | inputs {names} : names.map some = s.freeInputs.map s.layout.name? →
      Finding s ⟨[], .error (.unconstrainedInputs names)⟩
  | outputsDenied : Finding s ⟨[], .error (.unconstrainedHints s.freeOutputs.card)⟩
  | outputsWarned : Finding s ⟨[.unconstrainedHints s.freeOutputs.card], .ok ()⟩
  | covered : Finding s ⟨[], .ok ()⟩

/-- A tally that accounts for all constraints is judged by the free wires. -/
theorem finding_judge (hs : s.hints.Valid s.layout) {t : Tally}
    (ht : t.Accounts s.layout s.hints s.constrainedWires) : s.Finding (s.judge t) := by
  have houtputs : t.outputsLeft = s.freeOutputs.card := by
    rw [ht.outputs.left, card_freeOutputs hs]
  unfold judge
  by_cases hinputs : 0 < t.inputsLeft
  · rw [if_pos hinputs, ht.inputs.namesLeft]
    refine .inputs (Layout.map_some_filterMap_name? ?_)
    intro w hw
    exact (Layout.mem_declaredInputs.mp (List.mem_filter.mp hw).1).2
  · rw [if_neg hinputs, houtputs]
    by_cases hleft : 0 < s.freeOutputs.card
    · rw [if_pos hleft]
      cases s.config.hintPolicy with
      | warn => exact .outputsWarned
      | deny => exact .outputsDenied
    · rw [if_neg hleft]
      exact .covered

theorem finding_reportCoverage (hs : s.hints.Valid s.layout) : s.Finding s.reportCoverage := by
  rcases reportCoverage_cases hs with
    ⟨-, hnone⟩ | ⟨-, ⟨-, -, w, -, -, hundeclared⟩ | ⟨t, ht, hjudged⟩⟩
  · rw [hnone]
    exact .noInputs
  · rw [hundeclared]
    exact .undeclaredWire w
  · rw [hjudged]
    exact finding_judge hs ht

end

/-! ## Witnesses -/

variable {F : Type} [Field F] [DecidableEq F] [ToString F] {s : System F} {u v : Array F}

theorem checkEntries_congr (hsize : u.size = v.size) {es : List Entry}
    (h : ∀ e ∈ es, ∀ w ∈ e.constraint.nonzeroWires, u[w.index]? = v[w.index]?) (cid : Nat) :
    s.checkEntries u cid es = s.checkEntries v cid es := by
  induction es generalizing cid with
  | nil => rfl
  | cons e es ih =>
      obtain ⟨he, hes⟩ := List.forall_mem_cons.mp h
      rw [checkEntries, checkEntries, Constraint.holds_congr hsize he, ih hes]

/-- Values on free wires have no say. -/
theorem checkWitness_congr (hsize : u.size = v.size)
    (h : ∀ i, ¬ s.IsFree ⟨i⟩ → u[i]? = v[i]?) : s.checkWitness u = s.checkWitness v := by
  have hone : u[0]? = v[0]? := h 0 fun hfree => absurd hfree.1 (by decide)
  have hentries : s.checkEntries u 0 s.entries.toList = s.checkEntries v 0 s.entries.toList := by
    refine checkEntries_congr hsize (fun e he w hw => h w.index fun hfree => ?_) 0
    exact hfree.2 e.constraint (List.mem_map.mpr ⟨e, he, rfl⟩) hw
  rw [checkWitness, checkWitness, hsize, hone, hentries]

/-- What is reported as unconstrained is free: the values on free wires make no difference to any
check, the inputs that are listed are all the free ones, in order, and the outputs that are counted
are all the free ones. -/
theorem reported_wires_free (hs : s.Reachable) :
    (∀ u v : Array F, u.size = v.size → (∀ i, ¬ s.IsFree ⟨i⟩ → u[i]? = v[i]?) →
      s.checkWitness u = s.checkWitness v) ∧
    (∀ names, s.reportCoverage.verdict = .error (.unconstrainedInputs names) →
      ∃ ws : List Wire, (∀ w, w ∈ ws ↔ s.layout.isInput w = true ∧ s.IsFree w) ∧
        (ws.Pairwise fun u w => u.index < w.index) ∧ names.map some = ws.map s.layout.name?) ∧
    (∀ count, s.reportCoverage.verdict = .error (.unconstrainedHints count) ∨
        .unconstrainedHints count ∈ s.reportCoverage.warnings →
      ∃ ws : Finset Wire,
        (∀ w, w ∈ ws ↔ (∃ h ∈ s.hints.hints, w ∈ h.outputs) ∧ s.IsFree w) ∧ count = ws.card) := by
  have hvalid := valid_of_reachable hs
  have hfinding := finding_reportCoverage hvalid
  refine ⟨fun u v => checkWitness_congr, ?_, ?_⟩
  · intro names h
    refine ⟨s.freeInputs, fun w => mem_freeInputs, s.pairwise_freeInputs, ?_⟩
    generalize s.reportCoverage = report at h hfinding
    cases hfinding with
    | inputs hnames =>
        cases h
        exact hnames
    | _ => cases h
  · intro count h
    refine ⟨s.freeOutputs, fun w => mem_freeOutputs hvalid, ?_⟩
    generalize s.reportCoverage = report at h hfinding
    cases hfinding with
    | outputsDenied =>
        rcases h with h | h
        · cases h
          rfl
        · cases h
    | outputsWarned =>
        rcases h with h | h
        · cases h
        · cases List.mem_singleton.mp h
          rfl
    | _ => rcases h with h | h <;> cases h

/-- Nothing constrains the secret input, and only a zero term has the second output of the hint. -/
def looseRun : List (Call (Residue 17)) :=
  [.declarePublic "x", .declareSecret "y", .declareInternal, .declareInternal,
    .register ⟨⟨0⟩, [], [⟨3⟩, ⟨4⟩]⟩,
    .append ⟨⟨[⟨.one, ⟨1⟩⟩, ⟨.zero, ⟨4⟩⟩]⟩, ⟨[⟨.one, ⟨1⟩⟩]⟩, ⟨[⟨.one, ⟨3⟩⟩]⟩⟩ none]

theorem reported_wires_free_loose :
    ((empty {}).run looseRun).checkWitness #[1, .ofNat 2, .ofNat 3, .ofNat 4, .ofNat 5] =
      ((empty {}).run looseRun).checkWitness #[1, .ofNat 2, .ofNat 9, .ofNat 4, .ofNat 16] ∧
    (∃ ws : List Wire, (∀ w, w ∈ ws ↔
        ((empty {}).run looseRun).layout.isInput w = true ∧ ((empty {}).run looseRun).IsFree w) ∧
      (ws.Pairwise fun u w => u.index < w.index) ∧
      ["y"].map some = ws.map ((empty {}).run looseRun).layout.name?) ∧
    ∃ ws : Finset Wire, (∀ w, w ∈ ws ↔
        (∃ h ∈ ((empty {}).run halfReadRun).hints.hints, w ∈ h.outputs) ∧
          ((empty {}).run halfReadRun).IsFree w) ∧
      1 = ws.card := by
  refine ⟨?_, ?_, ?_⟩
  · obtain ⟨hcheck, -, -⟩ := reported_wires_free ((reachable_empty {}).run looseRun)
    refine hcheck _ _ rfl fun i hi => ?_
    match i with
    | 0 | 1 | 3 => rfl
    | 2 | 4 => exact absurd (by decide) hi
    | i + 5 => rfl
  · obtain ⟨-, hinputs, -⟩ := reported_wires_free ((reachable_empty {}).run looseRun)
    exact hinputs ["y"] (by decide)
  · obtain ⟨-, -, houtputs⟩ := reported_wires_free ((reachable_empty {}).run halfReadRun)
    exact houtputs 1 (.inr (by decide))

end System

end RankOne

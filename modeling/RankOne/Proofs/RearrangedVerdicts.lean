import RankOne.Proofs.Coverage
import RankOne.Proofs.Rearrangement
import RankOne.Proofs.Satisfaction

/-!
# Verdicts on rearranged systems

Systems that differ in the order of terms, arguments and outputs alone get the same coverage report,
since the same wires occur in their constraints (`System.Rearranged.reportCoverage_eq`). A witness
gets the same verdict from both, up to the text of a constraint that it does not meet and which of
several unknown coefficients is named (`System.Rearranged.sameVerdict`). So nothing that runs of
rearranged calls lead to depends on how they were written down (`System.presentation_irrelevant`).
-/

namespace RankOne

/-! ## Values -/

section Field

variable {F : Type} [Field F] {coeffs : CoeffTable F} {witness : Array F}

theorem LinearExpression.Rearranged.value_eq {e e' : LinearExpression} (h : e.Rearranged e') :
    e.value coeffs witness = e'.value coeffs witness :=
  (h.map _).sum_eq

namespace Constraint

variable {c c' : Constraint}

/-- The factors commute. -/
theorem Rearranged.equation_iff (h : c.Rearranged c') :
    c.Equation coeffs witness ↔ c'.Equation coeffs witness := by
  cases h with
  | straight hleft hright houtput =>
      rw [Equation, Equation, hleft.value_eq, hright.value_eq, houtput.value_eq]
  | crossed hleft hright houtput =>
      rw [Equation, Equation, hleft.value_eq, hright.value_eq, houtput.value_eq, mul_comm]

theorem Rearranged.met (h : c.Rearranged c') (hc : c.Met coeffs witness) :
    c'.Met coeffs witness where
  hasValue t ht := hc.hasValue t (h.perm_terms.mem_iff.mpr ht)
  equation := h.equation_iff.mp hc.equation

end Constraint

/-- What meets all of some constraints meets them rearranged. -/
theorem forall_met_of_rearranged {es es' : List Entry} (h : List.Forall₂ Entry.Rearranged es es')
    (hes : ∀ e ∈ es, e.constraint.Met coeffs witness) :
    ∀ e' ∈ es', e'.constraint.Met coeffs witness := by
  induction h with
  | nil => exact hes
  | cons he _ ih =>
      obtain ⟨hmet, hrest⟩ := List.forall_mem_cons.mp hes
      exact List.forall_mem_cons.mpr ⟨he.constraint.met hmet, ih hrest⟩

end Field

/-! ## Verdicts on a witness -/

/-- Verdicts of the same kind. A constraint that is not met has the same id and the same source. -/
inductive SameVerdict : Except Fault Unit → Except Fault Unit → Prop
  | same (verdict : Except Fault Unit) : SameVerdict verdict verdict
  | unknownCoeff (id id' : CoeffId) :
      SameVerdict (.error (.unknownCoeff id)) (.error (.unknownCoeff id'))
  | unsatisfied (cid : Nat) (text text' : String) (source : Option Provenance) :
      SameVerdict (.error (.unsatisfied cid text source)) (.error (.unsatisfied cid text' source))

namespace System

variable {F : Type} {s t : System F}

theorem Settled.declared_terms (hs : s.Settled) {e : Entry} (he : e ∈ s.entries.toList) :
    ∀ u ∈ e.constraint.terms, u.wire.index < s.layout.wireCount := by
  intro u hu
  refine hs.declared _ (List.mem_map_of_mem he) u.wire ?_
  rw [Constraint.wires_eq_map_terms]
  exact List.mem_map_of_mem hu

namespace Rearranged

/-! ## Coverage -/

/-- The same wires occur in the constraints. -/
theorem perm_constrainedWires (h : s.Rearranged t) :
    s.constrainedWires.Perm t.constrainedWires := by
  have hwires : List.Forall₂ List.Perm
      (s.entries.toList.map fun e => e.constraint.nonzeroWires)
      (t.entries.toList.map fun e => e.constraint.nonzeroWires) := by
    rw [List.forall₂_map_left_iff, List.forall₂_map_right_iff]
    exact h.entries.imp fun _ _ he => he.constraint.perm_nonzeroWires
  simpa [constrainedWires, constraints, List.flatMap_def, Function.comp_def] using
    List.Perm.flatten_congr hwires

/-- Tallies that account for all constraints of the two systems are judged alike. -/
theorem judge_eq (h : s.Rearranged t) {a b : Tally}
    (ha : a.Accounts s.layout s.hints s.constrainedWires)
    (hb : b.Accounts t.layout t.hints t.constrainedWires) : t.judge b = s.judge a := by
  have hfree : ∀ w, decide (w ∉ t.constrainedWires) = decide (w ∉ s.constrainedWires) := by
    intro w
    rw [decide_eq_decide, h.perm_constrainedWires.mem_iff]
  have hinputs : b.inputsLeft = a.inputsLeft := by
    simp only [hb.inputs.left, ha.inputs.left, h.layout, hfree]
  have hnames : b.namesLeft t.layout = a.namesLeft s.layout := by
    rw [hb.inputs.namesLeft, ha.inputs.namesLeft, h.layout]
    simp only [hfree]
  have houtputs : b.outputsLeft = a.outputsLeft := by
    simp only [hb.outputs.left, ha.outputs.left, HintRegistry.outputWires, h.places, hfree]
  simp only [judge, hinputs, hnames, houtputs, h.config]

theorem reportCoverage_eq (h : s.Rearranged t) (hs : s.Settled) (ht : t.Settled)
    (hvalid : s.hints.Valid s.layout) (hvalid' : t.hints.Valid t.layout) :
    t.reportCoverage = s.reportCoverage := by
  by_cases hnone : s.layout.declaredInputs = []
  · have hnone' : t.layout.declaredInputs = [] := by rw [h.layout, hnone]
    simp only [reportCoverage, Tally.inputsLeft_start_eq_zero_iff.mpr hnone,
      Tally.inputsLeft_start_eq_zero_iff.mpr hnone', if_true]
  · have hsome' : t.layout.declaredInputs ≠ [] := by rwa [h.layout]
    obtain ⟨a, ha, hreport⟩ := reportCoverage_eq_judge hvalid hs.declared_nonzeroWires hnone
    obtain ⟨b, hb, hreport'⟩ := reportCoverage_eq_judge hvalid' ht.declared_nonzeroWires hsome'
    rw [hreport, hreport', h.judge_eq ha hb]

/-- A place among the constraints of one system is one among those of the other. -/
theorem exists_split (h : s.Rearranged t) {pre post : List Entry} {e : Entry}
    (hsplit : s.entries.toList = pre ++ e :: post) :
    ∃ pre' e' post', t.entries.toList = pre' ++ e' :: post' ∧
      List.Forall₂ Entry.Rearranged pre pre' ∧ e.Rearranged e' := by
  have hentries := h.symm.entries
  rw [hsplit] at hentries
  have hpre := List.forall₂_take_append _ _ _ hentries
  have hrest := List.forall₂_drop_append _ _ _ hentries
  obtain ⟨e', post', he, -, hdrop⟩ := List.forall₂_cons_right_iff.mp hrest
  exact ⟨_, e', post', by rw [← hdrop, List.take_append_drop],
    (hpre.imp fun _ _ => Entry.Rearranged.symm).flip, he.symm⟩

end Rearranged

/-! ## Witnesses -/

variable [Field F] [ToString F] {witness : Array F} {cid : Nat} {e e' : Entry}
  {fault fault' : Fault}

/-- A constraint with declared wires is violated by an unknown coefficient, or else its equation
fails. -/
theorem Violation.cases_of_declared (h : s.Violation witness cid e fault)
    (hdeclared : ∀ u ∈ e.constraint.terms, u.wire.index < s.layout.wireCount) :
    (∃ u ∈ e.constraint.terms, s.coeffs.size ≤ u.coeff.index ∧ fault = .unknownCoeff u.coeff) ∨
    ((∀ u ∈ e.constraint.terms, u.coeff.index < s.coeffs.size) ∧
      ∃ text, fault = .unsatisfied cid text e.source) := by
  cases h with
  | @unknownCoeff before u after hterms hbefore hcoeff =>
      exact .inl ⟨u, by rw [hterms]; simp, hcoeff, rfl⟩
  | @undeclaredWire before u after hterms hbefore hcoeff hwire =>
      have hlt := hdeclared u (by rw [hterms]; simp)
      omega
  | unsatisfied hvalue hequation => exact .inr ⟨fun u hu => (hvalue u hu).1, _, rfl⟩

theorem Violation.not_met (h : s.Violation witness cid e fault)
    (hsize : witness.size = s.layout.wireCount) : ¬ e.constraint.Met s.coeffs witness := by
  intro hmet
  cases h with
  | @unknownCoeff before u after hterms hbefore hcoeff =>
      have hlt := (hmet.hasValue u (by rw [hterms]; simp)).1
      omega
  | @undeclaredWire before u after hterms hbefore hcoeff hwire =>
      have hlt := (hmet.hasValue u (by rw [hterms]; simp)).2
      omega
  | unsatisfied hvalue hequation => exact hequation hmet.equation

namespace Rearranged

/-- Violations of rearranged constraints come with the same verdict. -/
theorem sameVerdict_of_violation (h : s.Rearranged t) (he : e.Rearranged e')
    (hdeclared : ∀ u ∈ e.constraint.terms, u.wire.index < s.layout.wireCount)
    (hviolation : s.Violation witness cid e fault)
    (hviolation' : t.Violation witness cid e' fault') :
    SameVerdict (.error fault) (.error fault') := by
  have hterms : ∀ {u}, u ∈ e'.constraint.terms ↔ u ∈ e.constraint.terms :=
    he.constraint.perm_terms.mem_iff.symm
  have hdeclared' : ∀ u ∈ e'.constraint.terms, u.wire.index < t.layout.wireCount := by
    intro u hu
    rw [h.layout]
    exact hdeclared u (hterms.mp hu)
  -- the two constraints name the same coefficients, so they fail in the same way
  rcases hviolation.cases_of_declared hdeclared with ⟨u, hu, hunknown, rfl⟩ | ⟨hknown, text, rfl⟩
  · rcases hviolation'.cases_of_declared hdeclared' with ⟨u', -, -, rfl⟩ | ⟨hknown', -⟩
    · exact .unknownCoeff _ _
    · have hlt := hknown' u (hterms.mpr hu)
      rw [h.coeffs] at hlt
      omega
  · rcases hviolation'.cases_of_declared hdeclared' with ⟨u', hu', hunknown', -⟩ | ⟨-, text', rfl⟩
    · have hlt := hknown u' (hterms.mp hu')
      rw [h.coeffs] at hunknown'
      omega
    · rw [he.source]
      exact .unsatisfied _ _ _ _

variable [DecidableEq F]

/-- A witness gets the same verdict from rearranged systems. -/
theorem sameVerdict (h : s.Rearranged t) (hs : s.Settled) (witness : Array F) :
    SameVerdict (s.checkWitness witness) (t.checkWitness witness) := by
  have houtcome : s.Outcome witness (s.checkWitness witness) := checkWitness_eq_iff.mp rfl
  generalize s.checkWitness witness = verdict at houtcome
  cases houtcome with
  | length hsize =>
      rw [← h.layout] at hsize
      rw [(Outcome.length hsize).checkWitness, h.layout]
      exact .same _
  | one hsize hone =>
      rw [← h.layout] at hsize
      rw [(Outcome.one hsize hone).checkWitness]
      exact .same _
  | met hsize hone hall =>
      have hall' := forall_met_of_rearranged h.entries hall
      rw [← h.coeffs] at hall'
      rw [← h.layout] at hsize
      rw [(Outcome.met hsize hone hall').checkWitness]
      exact .same _
  | @violated pre e post fault hsize hone hsplit hpre hviolation =>
      obtain ⟨pre', e', post', hsplit', hpres, he⟩ := h.exists_split hsplit
      have hpre' := forall_met_of_rearranged hpres hpre
      have he' : ¬ e'.constraint.Met s.coeffs witness :=
        fun hmet => hviolation.not_met hsize (he.constraint.symm.met hmet)
      rw [← h.coeffs] at hpre' he'
      have hmem : e ∈ s.entries.toList := by simp [hsplit]
      have hdeclared := hs.declared_terms hmem
      rw [← h.layout] at hsize
      obtain ⟨fault', hviolation'⟩ := exists_violation hsize pre.length he'
      have hverdict := h.sameVerdict_of_violation he hdeclared hviolation hviolation'
      rw [hpres.length_eq] at hviolation'
      rw [(Outcome.violated hsize hone hsplit' hpre' hviolation').checkWitness]
      exact hverdict

end Rearranged

/-! ## Runs -/

omit [Field F] [ToString F] in
theorem appendsLeveled_of_rearranged {calls calls' : List (Call F)}
    (h : List.Forall₂ Call.Rearranged calls calls') (hleveled : AppendsLeveled calls) :
    AppendsLeveled calls' := by
  induction h with
  | nil => exact hleveled
  | cons hc _ ih =>
      obtain ⟨hfirst, hrest⟩ := appendsLeveled_cons.mp hleveled
      refine appendsLeveled_cons.mpr ⟨?_, ih hrest⟩
      cases hc with
      | same => exact hfirst
      | register | appendLeveled => exact fun _ _ h => nomatch h

variable [DecidableEq F]

/-- Two runs that store constraints only together with their levels, and differ in how constraints
and hints are written down, are turned down at the same calls. They lead to the same levels, to the
same report, and to the same verdict on every witness. -/
theorem presentation_irrelevant (config : Config) {calls calls' : List (Call F)}
    (hcalls : List.Forall₂ Call.Rearranged calls calls') (hleveled : AppendsLeveled calls) :
    let s := (empty config).run calls
    let t := (empty config).run calls'
    List.Forall₂ (fun a b => a.isOk = b.isOk)
      ((empty config).answers calls) ((empty config).answers calls') ∧
    (∀ cid, t.schedule.level? cid = s.schedule.level? cid) ∧
    t.schedule.levels = s.schedule.levels ∧
    (∀ w, t.schedule.wireLevel? w = s.schedule.wireLevel? w) ∧
    t.reportCoverage = s.reportCoverage ∧
    ∀ witness, SameVerdict (s.checkWitness witness) (t.checkWitness witness) := by
  intro s t
  have hempty : (empty config : System F).hints.Exact (empty config : System F).layout :=
    HintRegistry.exact_empty _
  have hs : s.Settled := settled_run (settled_empty config) hempty hleveled
  have ht : t.Settled := settled_run (settled_empty config) hempty
    (appendsLeveled_of_rearranged hcalls hleveled)
  obtain ⟨hanswers, hrearranged⟩ := rearranged_run (.empty config) hempty hempty hcalls
  refine ⟨hanswers, ?_, ?_, ?_, ?_, hrearranged.sameVerdict hs⟩
  · intro cid
    rw [hrearranged.schedule]
  · rw [hrearranged.schedule]
  · intro w
    rw [hrearranged.schedule]
  · exact hrearranged.reportCoverage_eq hs ht (exact_run hempty calls).toValid
      (exact_run hempty calls').toValid

/-- A hint with two arguments and two outputs, a constraint that reads one of these, and a
constraint with an undeclared wire. -/
def writtenRun (inputs : List LinearExpression) (outputs : List Wire) (left right : List Term) :
    List (Call (Residue 17)) :=
  [.declarePublic "x", .declareSecret "y", .declareInternal, .declareInternal, .declareInternal,
    .register ⟨⟨0⟩, inputs, outputs⟩,
    .appendLeveled ⟨⟨left⟩, ⟨right⟩, ⟨[⟨.one, ⟨5⟩⟩]⟩⟩ (some ⟨"(x + u)y == v", []⟩),
    appendOver [1, 9]]

/-- The run with everything in order. -/
def orderlyRun : List (Call (Residue 17)) :=
  writtenRun [⟨[⟨.one, ⟨1⟩⟩, ⟨.two, ⟨2⟩⟩]⟩, ⟨[⟨.one, ⟨2⟩⟩]⟩] [⟨3⟩, ⟨4⟩]
    [⟨.one, ⟨1⟩⟩, ⟨.one, ⟨3⟩⟩] [⟨.one, ⟨2⟩⟩]

/-- The same, with arguments, terms, outputs and factors exchanged. -/
def exchangedRun : List (Call (Residue 17)) :=
  writtenRun [⟨[⟨.one, ⟨2⟩⟩]⟩, ⟨[⟨.two, ⟨2⟩⟩, ⟨.one, ⟨1⟩⟩]⟩] [⟨4⟩, ⟨3⟩]
    [⟨.one, ⟨2⟩⟩] [⟨.one, ⟨3⟩⟩, ⟨.one, ⟨1⟩⟩]

/-- The values that are checked have 0 for `(1 + 3) * 2`. -/
theorem presentation_irrelevant_exchanged :
    ((empty {}).run exchangedRun).schedule.wireLevel? ⟨4⟩ = some 0 ∧
      ((empty {}).run exchangedRun).reportCoverage = ⟨[.unconstrainedHints 1], .ok ()⟩ ∧
      ∃ text, ((empty {}).run exchangedRun).checkWitness #[1, 1, .ofNat 2, .ofNat 3, .ofNat 4, 0] =
        .error (.unsatisfied 0 text (some ⟨"(x + u)y == v", []⟩)) := by
  have hhint : Hint.Rearranged
      ⟨⟨0⟩, [⟨[⟨.one, ⟨1⟩⟩, ⟨.two, ⟨2⟩⟩]⟩, ⟨[⟨.one, ⟨2⟩⟩]⟩], [⟨3⟩, ⟨4⟩]⟩
      ⟨⟨0⟩, [⟨[⟨.one, ⟨2⟩⟩]⟩, ⟨[⟨.two, ⟨2⟩⟩, ⟨.one, ⟨1⟩⟩]⟩], [⟨4⟩, ⟨3⟩]⟩ :=
    ⟨rfl, ⟨_, .swap _ _ _, .cons (.refl _) (.cons (.swap _ _ _) .nil)⟩, .swap _ _ _⟩
  have hconstraint : Constraint.Rearranged
      ⟨⟨[⟨.one, ⟨1⟩⟩, ⟨.one, ⟨3⟩⟩]⟩, ⟨[⟨.one, ⟨2⟩⟩]⟩, ⟨[⟨.one, ⟨5⟩⟩]⟩⟩
      ⟨⟨[⟨.one, ⟨2⟩⟩]⟩, ⟨[⟨.one, ⟨3⟩⟩, ⟨.one, ⟨1⟩⟩]⟩, ⟨[⟨.one, ⟨5⟩⟩]⟩⟩ :=
    .crossed (.swap _ _ _) (.refl _) (.refl _)
  have hcalls : List.Forall₂ Call.Rearranged orderlyRun exchangedRun :=
    .cons (.same _) <| .cons (.same _) <| .cons (.same _) <| .cons (.same _) <| .cons (.same _) <|
      .cons (.register hhint) <| .cons (.appendLeveled _ hconstraint) <| .cons (.same _) .nil
  have hleveled : AppendsLeveled orderlyRun := by
    simp [AppendsLeveled, orderlyRun, writtenRun, appendOver]
  obtain ⟨-, -, -, hlevel, hreport, hverdict⟩ := presentation_irrelevant {} hcalls hleveled
  have horderly :
      ((empty {}).run orderlyRun).checkWitness #[1, 1, .ofNat 2, .ofNat 3, .ofNat 4, 0] =
        .error (.unsatisfied 0 "x + v3 ⋅ y == v5" (some ⟨"(x + u)y == v", []⟩)) := by
    cbv
  have hexchanged := hverdict #[1, 1, .ofNat 2, .ofNat 3, .ofNat 4, 0]
  rw [horderly] at hexchanged
  refine ⟨(hlevel ⟨4⟩).trans (by cbv), hreport.trans (by cbv), ?_⟩
  generalize ((empty {}).run exchangedRun).checkWitness _ = verdict at hexchanged ⊢
  cases hexchanged with
  | same => exact ⟨_, rfl⟩
  | unsatisfied => exact ⟨_, rfl⟩

end System

end RankOne

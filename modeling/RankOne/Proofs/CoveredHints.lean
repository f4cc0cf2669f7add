import RankOne.Proofs.LeveledAppends
import RankOne.Proofs.UndeclaredWires

/-!
# Covered hints are scheduled

A report looks at the terms with a coefficient other than `0` and stops early, a leveling looks at
all terms and follows hints. For a front-end that stores constraints only together with their levels
the two agree: an output of a hint that no constraint produces occurs in none
(`System.Settled.mem_freeOutputs`), so a report that has nothing to say about hints leaves none of
their outputs without a producer (`System.covered_outputs_scheduled`).
-/

namespace RankOne

namespace System

section

variable {F : Type} {s : System F} {t : Tally} {h : Hint} {w : Wire}

/-- In a settled system an output that nothing has produced occurs in no constraint. -/
theorem Settled.mem_freeOutputs (hs : s.Settled) (hvalid : s.hints.Valid s.layout)
    (hh : h ∈ s.hints.hints) (hw : w ∈ h.outputs) (hnone : s.schedule.wireLevel? w = none) :
    w ∈ s.freeOutputs := by
  have houtput : w ∈ s.hints.hints.toList.flatMap Hint.outputs :=
    List.mem_flatMap.mpr ⟨h, Array.mem_toList_iff.mpr hh, hw⟩
  refine Finset.mem_filter.mpr ⟨List.mem_toFinset.mpr houtput, fun hconstrained => ?_⟩
  obtain ⟨c, hc, hcw⟩ := List.mem_flatMap.mp hconstrained
  have hinternal := hvalid.internal_of_mem_outputWires (hvalid.mem_outputWires_iff.mpr houtput)
  obtain ⟨level, hlevel⟩ :=
    hs.produced c hc w (Constraint.mem_wires_of_mem_nonzeroWires hcw) hinternal
  rw [hnone] at hlevel
  cases hlevel

/-- A judgement that neither fails nor warns has no outputs left to wait for. -/
theorem outputsLeft_eq_zero_of_judge (hok : (s.judge t).verdict = .ok ())
    (hsilent : (s.judge t).warnings = []) : t.outputsLeft = 0 := by
  unfold judge at hok hsilent
  by_cases hinputs : 0 < t.inputsLeft
  · rw [if_pos hinputs] at hok
    cases hok
  · rw [if_neg hinputs] at hok hsilent
    by_cases houtputs : 0 < t.outputsLeft
    · -- under one policy the outputs that are left are warned of, under the other they are a fault
      rw [if_pos houtputs] at hok hsilent
      cases hpolicy : s.config.hintPolicy with
      | warn =>
          rw [hpolicy] at hsilent
          cases hsilent
      | deny =>
          rw [hpolicy] at hok
          cases hok
    · exact Nat.eq_zero_of_not_pos houtputs

/-- If a report neither fails nor warns, every output of a hint occurs in some constraint. -/
theorem freeOutputs_eq_empty (hvalid : s.hints.Valid s.layout)
    (hok : s.reportCoverage.verdict = .ok ()) (hsilent : s.reportCoverage.warnings = []) :
    s.freeOutputs = ∅ := by
  rcases reportCoverage_cases hvalid with
    ⟨-, hreport⟩ | ⟨-, ⟨_, -, _, -, -, hreport⟩ | ⟨t, ht, hreport⟩⟩
  · rw [hreport] at hok
    cases hok
  · rw [hreport] at hok
    cases hok
  · rw [hreport] at hok hsilent
    rw [← Finset.card_eq_zero, card_freeOutputs hvalid, ← ht.outputs.left]
    exact outputsLeft_eq_zero_of_judge hok hsilent

variable [Zero F] [One F] [Add F] [Neg F] [DecidableEq F]

/-- If a report neither fails nor warns, and constraints are stored only together with their levels,
then every output of every hint is produced, whenever the hint was registered: a leveling of the run
has it among its outputs, and the wire and the constraint stand at the same level of the table. -/
theorem covered_outputs_scheduled (config : Config) (calls : List (Call F))
    (h : AppendsLeveled calls) :
    let s := (empty config).run calls
    s.reportCoverage.verdict = .ok () → s.reportCoverage.warnings = [] →
      ∀ hint ∈ s.hints.hints, ∀ w ∈ hint.outputs,
        ∃ d ∈ (empty config).levelings calls, w ∈ d.outputs ∧
          s.schedule.wireLevel? w = some d.level ∧ s.schedule.level? d.cid = some d.level ∧
          d.level < s.schedule.levelCount := by
  intro s hok hsilent hint hhint w hw
  have hs : s.Settled := settled_run (settled_empty config) (HintRegistry.exact_empty _) h
  have hreachable : s.Reachable := (reachable_empty config).run calls
  have hproduced : ∃ level, s.schedule.wireLevel? w = some level := by
    refine Option.ne_none_iff_exists'.mp fun hnone => ?_
    have hfree := hs.mem_freeOutputs (valid_of_reachable hreachable) hhint hw hnone
    rw [freeOutputs_eq_empty (valid_of_reachable hreachable) hok hsilent] at hfree
    exact absurd hfree (Finset.notMem_empty w)
  obtain ⟨level, hlevel⟩ := hproduced
  have hreplay := hlevel
  rw [schedule_run_empty] at hreplay
  obtain ⟨d, hd, hwd, rfl⟩ := Schedule.exists_producer hreplay
  exact ⟨d, hd, hwd, hlevel, level?_of_levelings hd,
    (wellScheduled_of_reachable hreachable).exact.wireLevel_lt w d.level hlevel⟩

end

/-- Wire 2 is produced before a hint takes it over, the hint of wire 4 is expanded by a constraint
which reads that wire with the coefficient `0`, and the last constraint covers both. -/
def coveredRun : List (Call (Residue 17)) :=
  [.declarePublic "x", .declareInternal, .declareInternal, .declareInternal, .declareInternal,
    appendOver [2], registerOver [1] [2, 3], registerOver [3] [4, 5],
    .appendLeveled ⟨⟨[⟨.zero, ⟨4⟩⟩]⟩, {}, ⟨[⟨.one, ⟨1⟩⟩]⟩⟩ none, appendOver [5, 3, 4]]

theorem covered_outputs_scheduled_shared :
    ((empty .strict).run coveredRun).reportCoverage.verdict = .ok () ∧
      ((empty .strict).run coveredRun).reportCoverage.warnings = [] ∧
      ∃ d ∈ (empty .strict).levelings coveredRun, ⟨2⟩ ∈ d.outputs ∧
        ((empty .strict).run coveredRun).schedule.wireLevel? ⟨2⟩ = some d.level ∧
        ((empty .strict).run coveredRun).schedule.level? d.cid = some d.level ∧
        d.level < ((empty .strict).run coveredRun).schedule.levelCount := by
  have hleveled : AppendsLeveled coveredRun := by
    simp [AppendsLeveled, coveredRun, appendOver, registerOver]
  have hok : ((empty .strict).run coveredRun).reportCoverage.verdict = .ok () := by cbv
  have hsilent : ((empty .strict).run coveredRun).reportCoverage.warnings = [] := by cbv
  have hhint : (⟨⟨0⟩, [⟨[⟨.one, ⟨1⟩⟩]⟩], [⟨2⟩, ⟨3⟩]⟩ : Hint) ∈
      ((empty .strict).run coveredRun).hints.hints :=
    Array.mem_of_getElem? (i := 0) (by cbv)
  exact ⟨hok, hsilent,
    covered_outputs_scheduled .strict coveredRun hleveled hok hsilent _ hhint ⟨2⟩ (by decide)⟩

end System

end RankOne

import RankOne.Proofs.Dependencies
import RankOne.Proofs.Registry

/-!
# Solved hints

An output of a hint gets its producing level when a constraint expands the hint, and then all the
outputs get it. Only a late hint can have an output that was produced without it
(`System.Expands.call`). If no hint is registered late, each hint is therefore solved as a whole, by
one constraint, and its arguments are available to this constraint
(`System.solved_hint_has_arguments`). Nothing is asked of the graph of hints: they may read their
own and each other's outputs.
-/

namespace RankOne

namespace System

variable {F : Type} {s : System F}

/-! ## Who has expanded a hint -/

/-- The levelings that produced outputs of a hint have expanded the hint, late hints apart. -/
def Expands (s : System F) (late : Nat → Prop) (ds : List Leveled) : Prop :=
  ∀ (i : Nat) (h : Hint), s.hints.hints[i]? = some h → ¬ late i →
    ∀ w ∈ h.outputs, ∀ d ∈ ds, w ∈ d.outputs → i ∈ d.hints

variable [Zero F] [One F] [Add F] [Neg F] [DecidableEq F]

theorem Expands.call {late : Nat → Prop} {ds : List Leveled} {c : Call F}
    (hexpands : s.Expands late ds) (hs : s.hints.Valid s.layout)
    (hschedule : s.schedule = Schedule.replay ds)
    (hregister : ∀ i, s.lateHint? c = some i → late i) :
    (s.call c).2.Expands late (ds ++ (s.decision c).toList) := by
  have heffect := s.effect_of_call c
  generalize (s.decision c).toList = new at heffect ⊢
  generalize (s.call c).2 = t at heffect ⊢
  cases heffect with
  | nothing | declared | interned | stored =>
      rw [List.append_nil]
      exact hexpands
  | leveled hentries hstored hsweep =>
      intro i h hget hi w hw d hd hout
      rcases List.mem_append.mp hd with hold | hnew
      · exact hexpands i h hget hi w hw d hold hout
      · rw [List.mem_singleton.mp hnew] at hout ⊢
        exact mem_expanded_of_mem_outputs (gathers_of_sweep hsweep) hs hget hw hout
  | registered hc hcheck =>
      rename_i g
      subst hc
      intro i h hget hi w hw d hd hout
      rw [List.append_nil] at hd
      rw [HintRegistry.getElem?_hints_push] at hget
      split at hget
      · rename_i hplace
        cases hget
        -- an output that is produced already would make the hint late
        obtain ⟨level, hlevel⟩ := Schedule.exists_wireLevel hd hout
        rw [← hschedule] at hlevel
        refine absurd (hregister i (lateHint?_eq_some_iff.mpr ⟨g, rfl, ?_, w, hw, level, hlevel⟩)) hi
        exact call_register_eq_ok_iff.mpr ⟨hcheck, by rw [hplace]⟩
      · exact hexpands i h hget hi w hw d hd hout

/-- In every run, what has produced an output of a hint has expanded the hint, late hints apart. -/
theorem expands_run (config : Config) (calls : List (Call F)) :
    ((empty config).run calls).Expands (fun i => i ∈ (empty config : System F).lateHints calls)
      ((empty config).levelings calls) := by
  induction calls using List.reverseRecOn with
  | nil =>
      intro i h hget
      simp [empty, run] at hget
  | append_singleton calls c ih =>
      have hold : ((empty config).run calls).Expands
          (fun i => i ∈ (empty config : System F).lateHints (calls ++ [c]))
          ((empty config).levelings calls) := by
        intro i h hget hi
        rw [lateHints_append] at hi
        exact ih i h hget fun hlate => hi (List.mem_append_left _ hlate)
      have hcall := hold.call (c := c) (valid_of_reachable ((reachable_empty config).run calls))
        (schedule_run_empty config calls) fun i hi => by
          rw [lateHints_append]
          exact List.mem_append_right _ (by simp [lateHints, hi])
      rw [levelings_append, run_append, levelings_cons]
      simpa [run, levelings, answers] using hcall

/-! ## Solved hints -/

/-- A constraint that has expanded a hint produces all the outputs of the hint. -/
theorem mem_outputs_of_mem_hints {config : Config} {calls : List (Call F)} {c : Leveled} {i : Nat}
    {h : Hint} {w : Wire} (hc : c ∈ (empty config).levelings calls) (hi : i ∈ c.hints)
    (hget : ((empty config).run calls).hints.hints[i]? = some h) (hw : w ∈ h.outputs) :
    w ∈ c.outputs := by
  obtain ⟨pre, post, hsplit⟩ := List.append_of_mem hc
  obtain ⟨before, after, v, rfl, -, hsweep, hcv⟩ := exists_system_of_leveling hsplit
  have hv := gathers_of_sweep hsweep
  rw [hcv] at hi ⊢
  obtain ⟨u, g, -, hrole⟩ := hv.expanded i hi
  -- the hint that was expanded then is the one that is registered now
  have hthen := getElem?_hints_of_role hrole
  have hnow := (extends_run ((empty config).run before) after).hints i g hthen
  rw [← run_append, hget] at hnow
  cases hnow
  exact hv.hint_outputs i hi h hthen w hw

/-- If no hint is registered late, the outputs of each hint are produced by one constraint, or none
of them is produced. An argument of a solved hint is an input, or this constraint produces it, or it
has a lower producing level. -/
theorem solved_hint_has_arguments (config : Config) (calls : List (Call F))
    (hlate : (empty config : System F).lateHints calls = []) :
    let s := (empty config : System F).run calls
    let levelings := (empty config : System F).levelings calls
    ∀ h ∈ s.hints.hints,
      (∀ w ∈ h.outputs, s.schedule.wireLevel? w = none) ∨
      ∃ c ∈ levelings, s.schedule.level? c.cid = some c.level ∧
        (∀ w ∈ h.outputs, s.schedule.wireLevel? w = some c.level ∧
          ∀ d ∈ levelings, w ∈ d.outputs ↔ d = c) ∧
        ∀ w ∈ h.inputWires, s.layout.isInput w = true ∨ w ∈ c.outputs ∨
          ∃ level, s.schedule.wireLevel? w = some level ∧ level < c.level := by
  intro s levelings h hmem
  have hsole : Schedule.SoleProducers levelings := soleProducers_of_lateHints_eq_nil hlate
  have hschedule : s.schedule = Schedule.replay levelings := schedule_run_empty config calls
  obtain ⟨i, hget⟩ := Array.mem_iff_getElem?.mp hmem
  by_cases hnone : ∀ w ∈ h.outputs, s.schedule.wireLevel? w = none
  · exact .inl hnone
  · right
    simp only [not_forall] at hnone
    obtain ⟨u, hu, hproduced⟩ := hnone
    obtain ⟨level, hlevel⟩ := Option.ne_none_iff_exists'.mp hproduced
    rw [hschedule] at hlevel
    obtain ⟨c, hc, huc, -⟩ := Schedule.exists_producer hlevel
    -- whoever produced one output has expanded the hint, and so produced and read all of it
    have hi : i ∈ c.hints := by
      refine expands_run config calls i h hget ?_ u hu c hc huc
      rw [hlate]
      exact List.not_mem_nil
    have houtputs : ∀ w ∈ h.outputs, w ∈ c.outputs := fun w => mem_outputs_of_mem_hints hc hi hget
    refine ⟨c, hc, level?_of_levelings hc, ?_, ?_⟩
    · intro w hw
      rw [hschedule]
      refine ⟨hsole.wireLevel? hc (houtputs w hw), fun d hd => ⟨?_, ?_⟩⟩
      · exact fun hwd => hsole.eq hd hc hwd (houtputs w hw)
      · rintro rfl
        exact houtputs w hw
    · intro w hw
      cases hinput : s.layout.isInput w with
      | true => exact .inl rfl
      | false =>
          obtain ⟨p, hp, hwp, rfl | ⟨-, hlt⟩⟩ :=
            producer_of_reads hc (.inr ⟨i, hi, h, hget, hw⟩) hinput
          · exact .inr (.inl hwp)
          · refine .inr (.inr ⟨p.level, ?_, hlt⟩)
            rw [hschedule]
            exact hsole.wireLevel? hp hwp

/-- The hint of wires 2 and 4 is solved at level 1. Of its arguments, wire 3 is computed by a hint
that reads both of them, and wire 5 has a lower level. -/
theorem solved_hint_has_arguments_entangled :
    (empty {}).lateHints entangledRun = [] ∧
      (∃ h ∈ ((empty {}).run entangledRun).hints.hints,
        h.inputWires = [⟨3⟩, ⟨5⟩] ∧ h.outputs = [⟨2⟩, ⟨4⟩]) ∧
      ∃ c ∈ (empty {}).levelings entangledRun, c.level = 1 ∧
        (∀ w ∈ [⟨2⟩, ⟨4⟩], w ∈ c.outputs) ∧
        ∀ w ∈ [⟨3⟩, ⟨5⟩], ((empty {}).run entangledRun).layout.isInput w = true ∨ w ∈ c.outputs ∨
          ∃ level, ((empty {}).run entangledRun).schedule.wireLevel? w = some level ∧ level < 1 := by
  have hlate : (empty {}).lateHints entangledRun = [] := by cbv
  have hget : ((empty {}).run entangledRun).hints.hints[1]? =
      some ⟨⟨0⟩, [⟨[⟨.one, ⟨3⟩⟩, ⟨.one, ⟨5⟩⟩]⟩], [⟨2⟩, ⟨4⟩]⟩ := by cbv
  have hlevel : ((empty {}).run entangledRun).schedule.wireLevel? ⟨2⟩ = some 1 := by cbv
  have hmem := Array.mem_of_getElem? hget
  refine ⟨hlate, ⟨_, hmem, by decide, rfl⟩, ?_⟩
  rcases solved_hint_has_arguments {} entangledRun hlate _ hmem with
    hnone | ⟨c, hc, -, houtputs, harguments⟩
  · rw [hnone ⟨2⟩ (by decide)] at hlevel
    cases hlevel
  · rw [(houtputs ⟨2⟩ (by decide)).1] at hlevel
    have hone : c.level = 1 := Option.some.inj hlevel
    rw [hone] at harguments
    exact ⟨c, hc, hone, fun w hw => ((houtputs w hw).2 c hc).mpr rfl, harguments⟩

end System

end RankOne

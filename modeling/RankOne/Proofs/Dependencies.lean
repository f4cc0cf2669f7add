import RankOne.Proofs.Producers

/-!
# What constraints depend on

If no hint is registered late, every internal wire that a constraint reads has one producer: the
constraint itself, or an earlier one at a lower level (`System.sound_schedule`). Constraints of one
level are then independent of each other.
-/

namespace RankOne

namespace System

variable {F : Type} [Zero F] [One F] [Add F] [Neg F] [DecidableEq F]

/-- What a constraint reads has a lower producing level when it is leveled, or the constraint
produces it. This holds in all runs. -/
theorem produced_of_reads {config : Config} {calls : List (Call F)} {pre post : List Leveled}
    {c : Leveled} {w : Wire} (hsplit : (empty config).levelings calls = pre ++ c :: post)
    (hreads : ((empty config).run calls).Reads c w)
    (hinternal : ((empty config).run calls).layout.isInput w = false) :
    (∃ level, (Schedule.replay pre).wireLevel? w = some level ∧ level < c.level) ∨
      w ∈ c.outputs := by
  obtain ⟨before, after, v, rfl, hpre, hsweep, hc⟩ := exists_system_of_leveling hsplit
  have hv := gathers_of_sweep hsweep
  have hext := extends_run ((empty config).run before) after
  rw [run_append] at hreads hinternal
  have hleads : ((empty config).run before).LeadsTo c.reads w := by
    rw [hc] at hreads
    exact leadsTo_of_reads hv hext hreads
  obtain ⟨r, hrole⟩ := hv.exists_role hleads
  -- the wire was declared when the constraint was leveled, and it has stayed internal since
  rw [hext.layout.isInput_eq w (role_eq_ok_iff.mp hrole).1] at hinternal
  have hvalid := valid_of_reachable ((reachable_empty config).run before)
  have hproduced := produced_or_mem_outputs hv hvalid hleads hinternal
  rw [schedule_run_empty, hpre] at hproduced
  rw [hc]
  exact hproduced

/-- Only internal wires are produced. -/
theorem internal_of_produced {config : Config} {calls : List (Call F)} {c : Leveled} {w : Wire}
    (hc : c ∈ (empty config).levelings calls) (hw : w ∈ c.outputs) :
    ((empty config).run calls).layout.isInput w = false := by
  obtain ⟨pre, post, hsplit⟩ := List.append_of_mem hc
  obtain ⟨before, after, v, rfl, -, hsweep, hcv⟩ := exists_system_of_leveling hsplit
  have hvalid := valid_of_reachable ((reachable_empty config).run before)
  rw [hcv] at hw
  obtain ⟨hdeclared, hinternal⟩ := internal_of_mem_outputs (gathers_of_sweep hsweep) hvalid hw
  rw [run_append, (extends_run ((empty config).run before) after).layout.isInput_eq w hdeclared]
  exact hinternal

/-- An internal wire that a constraint reads is produced by the constraint itself, or by an earlier
one at a lower level. -/
theorem producer_of_reads {config : Config} {calls : List (Call F)} {c : Leveled} {w : Wire}
    (hc : c ∈ (empty config).levelings calls)
    (hreads : ((empty config).run calls).Reads c w)
    (hinternal : ((empty config).run calls).layout.isInput w = false) :
    ∃ p ∈ (empty config : System F).levelings calls, w ∈ p.outputs ∧
      (p = c ∨ p.cid < c.cid ∧ p.level < c.level) := by
  -- whatever was produced when the constraint was leveled, an earlier leveling has produced
  obtain ⟨pre, post, hsplit⟩ := List.append_of_mem hc
  rcases produced_of_reads hsplit hreads hinternal with ⟨level, hlevel, hlt⟩ | hout
  · obtain ⟨p, hp, hwp, rfl⟩ := Schedule.exists_producer hlevel
    refine ⟨p, ?_, hwp, .inr ⟨cid_lt_of_levelings hsplit hp, hlt⟩⟩
    rw [hsplit]
    exact List.mem_append_left _ hp
  · exact ⟨c, hc, hout, .inl rfl⟩

/-- If no hint is registered late, the schedule is sound: what a constraint reads is an input, or
has exactly one producer, at the level that the wire has and below that of the constraint, unless
the constraint produces it itself. Constraints of one level are independent. -/
theorem sound_schedule (config : Config) (calls : List (Call F))
    (hlate : (empty config : System F).lateHints calls = []) :
    let s := (empty config : System F).run calls
    let levelings := (empty config : System F).levelings calls
    levelings.map Leveled.cid = List.range s.schedule.leveledCount ∧
      (∀ c ∈ levelings, s.schedule.level? c.cid = some c.level) ∧
      (∀ c ∈ levelings, ∀ w, s.Reads c w → s.layout.isInput w = false →
        ∃ p ∈ levelings, w ∈ p.outputs ∧ (∀ q ∈ levelings, w ∈ q.outputs → q = p) ∧
          s.schedule.wireLevel? w = some p.level ∧
          (p = c ∨ p.cid < c.cid ∧ p.level < c.level)) ∧
      ∀ c ∈ levelings, ∀ d ∈ levelings, c.cid ≠ d.cid → c.level = d.level →
        (∀ w, s.Reads c w → w ∉ d.outputs) ∧ ∀ w ∈ c.outputs, w ∉ d.outputs := by
  intro s levelings
  -- without late hints no wire has two producers, in whatever order the calls came
  have hsole : Schedule.SoleProducers levelings := by
    apply soleProducers_of_not_late
    intro d _ i _
    rw [hlate]
    exact List.not_mem_nil
  have hschedule : s.schedule = Schedule.replay levelings := schedule_run_empty config calls
  refine ⟨?_, ?_, ?_, ?_⟩
  · exact map_cid_levelings config calls
  · intro c hc
    obtain ⟨n, hn⟩ := List.mem_iff_getElem?.mp hc
    rw [hschedule, Schedule.level?_replay, cid_of_getElem?_levelings hn]
    show levelings[n]?.map Leveled.level = some c.level
    rw [show levelings[n]? = some c from hn]
    rfl
  · intro c hc w hreads hinternal
    obtain ⟨p, hp, hwp, hbelow⟩ := producer_of_reads hc hreads hinternal
    refine ⟨p, hp, hwp, fun q hq hwq => hsole.eq hq hp hwq hwp, ?_, hbelow⟩
    rw [hschedule]
    exact hsole.wireLevel? hp hwp
  · intro c hc d hd hne hlevel
    refine ⟨?_, fun w hwc hwd => hne (by rw [hsole.eq hc hd hwc hwd])⟩
    intro w hreads hwd
    obtain ⟨p, hp, hwp, rfl | ⟨-, hlt⟩⟩ :=
      producer_of_reads hc hreads (internal_of_produced hd hwd)
    · exact hne (by rw [hsole.eq hp hd hwp hwd])
    · rw [hsole.eq hp hd hwp hwd] at hlt
      omega

/-- Hints that read their own and each other's outputs, one of them registered after a leveling,
between constraints that are turned down and constraints that are not. -/
def entangledRun : List (Call (Residue 17)) :=
  [.declarePublic "x", .declareInternal, .declareInternal, .declareInternal, .declareInternal,
    registerOver [1, 4, 2] [3], appendOver [5], appendOver [9], registerOver [3, 5] [2, 4],
    appendOver [1, 2, 5], appendOver [4, 0, 3], .level 7 [⟨1⟩]]

theorem sound_schedule_entangled :
    (empty {}).lateHints entangledRun = [] ∧
      ((empty {}).levelings entangledRun).map Leveled.level = [0, 1, 2] ∧
      ∀ c ∈ (empty {}).levelings entangledRun, ∀ w,
        ((empty {}).run entangledRun).Reads c w →
        ((empty {}).run entangledRun).layout.isInput w = false →
        ∃ p ∈ (empty {}).levelings entangledRun, w ∈ p.outputs ∧
          ((empty {}).run entangledRun).schedule.wireLevel? w = some p.level ∧
          (p = c ∨ p.cid < c.cid ∧ p.level < c.level) := by
  have hlate : (empty {}).lateHints entangledRun = [] := by cbv
  obtain ⟨-, -, hreads, -⟩ := sound_schedule {} entangledRun hlate
  refine ⟨hlate, by cbv, ?_⟩
  intro c hc w hw hinternal
  obtain ⟨p, hp, hwp, -, hlevel, hbelow⟩ := hreads c hc w hw hinternal
  exact ⟨p, hp, hwp, hlevel, hbelow⟩

end System

end RankOne

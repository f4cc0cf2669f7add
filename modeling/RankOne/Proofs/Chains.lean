import RankOne.Proofs.Dependencies

/-!
# Chains of dependencies

A constraint at level `k + 1` depends on one at level `k` (`System.exists_dependency`), so a chain
of dependencies as long as its level leads up to it. Whoever puts every constraint above those that
it depends on has to climb this chain. The levels are therefore the least schedule, and they are the
lengths of the longest chains (`System.least_schedule`).
-/

namespace RankOne

namespace System

variable {F : Type}

/-- One constraint reads a wire that another constraint produces. -/
def DependsOn (s : System F) (c p : Leveled) : Prop :=
  p.cid ≠ c.cid ∧ ∃ w ∈ p.outputs, s.Reads c w

/-- A chain of `n` dependencies leads up to a constraint. -/
inductive Chain (s : System F) (levelings : List Leveled) : Nat → Leveled → Prop
  | start {c} : c ∈ levelings → Chain s levelings 0 c
  | climb {n p c} : Chain s levelings n p → c ∈ levelings → s.DependsOn c p →
      Chain s levelings (n + 1) c

/-- A choice of levels puts every constraint above those that it depends on. -/
def Respects (s : System F) (levelings : List Leveled) (f : Nat → Nat) : Prop :=
  ∀ c ∈ levelings, ∀ p ∈ levelings, s.DependsOn c p → f p.cid < f c.cid

theorem Chain.mem {s : System F} {levelings : List Leveled} {n : Nat} {c : Leveled}
    (h : s.Chain levelings n c) : c ∈ levelings := by
  cases h with
  | start hc => exact hc
  | climb hp hc hdepends => exact hc

/-- A choice of levels that respects dependencies climbs every chain. -/
theorem Chain.le {s : System F} {levelings : List Leveled} {f : Nat → Nat} {n : Nat} {c : Leveled}
    (h : s.Chain levelings n c) (hf : s.Respects levelings f) : n ≤ f c.cid := by
  induction h with
  | start hc => exact Nat.zero_le _
  | climb hp hc hdepends ih =>
      have hlt := hf _ hc _ hp.mem hdepends
      omega

variable [Zero F] [One F] [Add F] [Neg F] [DecidableEq F]

/-- A constraint above the lowest level depends on one at the level right below. -/
theorem exists_dependency {config : Config} {calls : List (Call F)} {c : Leveled} {k : Nat}
    (hc : c ∈ (empty config).levelings calls) (hlevel : c.level = k + 1) :
    ∃ p ∈ (empty config).levelings calls, ((empty config).run calls).DependsOn c p ∧
      p.level = k := by
  obtain ⟨pre, post, hsplit⟩ := List.append_of_mem hc
  obtain ⟨before, after, v, rfl, hpre, hsweep, hcv⟩ := exists_system_of_leveling hsplit
  have hv := gathers_of_sweep hsweep
  rw [hcv] at hlevel
  replace hlevel : v.level = k + 1 := hlevel
  rcases hv.level with hzero | ⟨w, l, hleads, hrole, habove⟩
  · omega
  · -- the highest wire that was met is one of an earlier constraint
    have hproduced := (standing_of_role hrole).2
    rw [schedule_run_empty, hpre] at hproduced
    obtain ⟨p, hp, hwp, rfl⟩ := Schedule.exists_producer hproduced
    refine ⟨p, ?_, ⟨Nat.ne_of_lt (cid_lt_of_levelings hsplit hp), w, hwp, ?_⟩, by omega⟩
    · rw [hsplit]
      exact List.mem_append_left _ hp
    · rw [hcv, run_append]
      exact reads_of_leadsTo hv (extends_run ((empty config).run before) after) hleads

/-- A chain as long as its level leads up to every constraint. -/
theorem chain_of_levelings {config : Config} {calls : List (Call F)} {c : Leveled}
    (hc : c ∈ (empty config).levelings calls) :
    ((empty config).run calls).Chain ((empty config).levelings calls) c.level c := by
  generalize hlevel : c.level = k
  induction k generalizing c with
  | zero => exact .start hc
  | succ k ih =>
      obtain ⟨p, hp, hdepends, hbelow⟩ := exists_dependency hc hlevel
      exact .climb (ih hp hbelow) hc hdepends

/-- Where wires have sole producers, the levels themselves respect dependencies. -/
theorem respects_level {config : Config} {calls : List (Call F)}
    (hsole : Schedule.SoleProducers ((empty config : System F).levelings calls)) :
    ((empty config).run calls).Respects ((empty config).levelings calls)
      fun cid => (((empty config).run calls).schedule.level? cid).getD 0 := by
  rintro c hc p hp ⟨hne, w, hwp, hreads⟩
  obtain ⟨q, hq, hwq, rfl | ⟨-, hlt⟩⟩ := producer_of_reads hc hreads (internal_of_produced hp hwp)
  · rw [hsole.eq hp hq hwp hwq] at hne
    exact absurd rfl hne
  · rw [hsole.eq hq hp hwq hwp] at hlt
    show (((empty config).run calls).schedule.level? p.cid).getD 0 <
      (((empty config).run calls).schedule.level? c.cid).getD 0
    rw [level?_of_levelings hc, level?_of_levelings hp]
    exact hlt

/-- If no hint is registered late, the levels are the least choice of natural numbers that puts
every constraint above those that it depends on, and they are the lengths of the longest chains of
dependencies. -/
theorem least_schedule (config : Config) (calls : List (Call F))
    (hlate : (empty config : System F).lateHints calls = []) :
    let s := (empty config : System F).run calls
    let levelings := (empty config : System F).levelings calls
    levelings.map Leveled.cid = List.range s.schedule.leveledCount ∧
      (∀ c ∈ levelings, s.schedule.level? c.cid = some c.level) ∧
      s.Respects levelings (fun cid => (s.schedule.level? cid).getD 0) ∧
      (∀ f, s.Respects levelings f → ∀ c ∈ levelings, c.level ≤ f c.cid) ∧
      ∀ c ∈ levelings, s.Chain levelings c.level c ∧ ∀ n, s.Chain levelings n c → n ≤ c.level := by
  intro s levelings
  have hrespects := respects_level (soleProducers_of_lateHints_eq_nil hlate)
  refine ⟨map_cid_levelings config calls, fun c hc => level?_of_levelings hc, hrespects, ?_, ?_⟩
  · intro f hf c hc
    exact (chain_of_levelings hc).le hf
  · intro c hc
    refine ⟨chain_of_levelings hc, fun n hn => ?_⟩
    have hle := hn.le hrespects
    rw [level?_of_levelings hc] at hle
    exact hle

/-- The second constraint expands a hint that reads the wire of the first, and one of its own
outputs. The last one reads the other output, and a wire of the lowest level. -/
def ladderRun : List (Call (Residue 17)) :=
  [.declarePublic "x", .declareInternal, .declareInternal, .declareInternal, .declareInternal,
    .declareInternal, registerOver [2, 4] [3, 4], appendOver [1, 2], appendOver [3],
    appendOver [5], appendOver [4, 5, 6]]

theorem least_schedule_ladder :
    ∃ c ∈ (empty {}).levelings ladderRun, c.cid = 3 ∧
      ((empty {}).run ladderRun).Chain ((empty {}).levelings ladderRun) 2 c ∧
      ((empty {}).run ladderRun).Respects ((empty {}).levelings ladderRun)
        (fun cid => (((empty {}).run ladderRun).schedule.level? cid).getD 0) ∧
      ∀ f, ((empty {}).run ladderRun).Respects ((empty {}).levelings ladderRun) f → 2 ≤ f 3 := by
  have hlate : (empty {}).lateHints ladderRun = [] := by cbv
  have hlevelings : (empty {}).levelings ladderRun =
      [⟨0, 0, [⟨1⟩, ⟨2⟩], [⟨2⟩], []⟩, ⟨1, 1, [⟨3⟩], [⟨4⟩, ⟨3⟩], [0]⟩, ⟨2, 0, [⟨5⟩], [⟨5⟩], []⟩,
        ⟨3, 2, [⟨4⟩, ⟨5⟩, ⟨6⟩], [⟨6⟩], []⟩] := by cbv
  have hlast : ⟨3, 2, [⟨4⟩, ⟨5⟩, ⟨6⟩], [⟨6⟩], []⟩ ∈ (empty {}).levelings ladderRun := by
    rw [hlevelings]
    simp
  obtain ⟨-, -, hrespects, hleast, hchain⟩ := least_schedule {} ladderRun hlate
  exact ⟨_, hlast, rfl, (hchain _ hlast).1, hrespects, fun f hf => hleast f hf _ hlast⟩

end System

end RankOne

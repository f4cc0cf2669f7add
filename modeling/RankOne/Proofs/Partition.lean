import Mathlib.Data.List.Nodup
import RankOne.Proofs.Producers

/-!
# The table of levels

A constraint is entered at a level that the table has, or at the one that comes next, since wires
are produced at levels of the table only. So no level is skipped, and the table is an exact
partition of the leveled constraints: it holds each of them once, at its level
(`System.levels_partition`). One leveling keeps this up (`Schedule.Exact.record`), and no other call
touches it (`System.Effect.wellScheduled`).
-/

namespace RankOne

namespace Schedule

variable {s : Schedule} {d : Leveled}

/-! ## Entering a constraint -/

/-- The constraint ids of a level. There are none past the last one. -/
def idsAt (s : Schedule) (k : Nat) : Array Nat := s.levels[k]?.getD #[]

theorem mem_idsAt {k cid : Nat} :
    cid ∈ s.idsAt k ↔ ∃ ids, s.levels[k]? = some ids ∧ cid ∈ ids := by
  unfold idsAt
  cases s.levels[k]? <;> simp

/-- A constraint is entered at its level, and nowhere else. -/
theorem idsAt_record (h : d.level ≤ s.levelCount) (k : Nat) :
    (s.record d).idsAt k = if k = d.level then (s.idsAt k).push d.cid else s.idsAt k := by
  show (enter s.levels d.level d.cid)[k]?.getD #[] = _
  unfold enter idsAt
  have hsize : d.level ≤ s.levels.size := h
  by_cases hold : d.level < s.levels.size
  · rw [if_pos hold, Array.getElem?_modify]
    by_cases hk : k = d.level
    · subst hk
      simp [hold]
    · rw [if_neg (Ne.symm hk), if_neg hk]
  · have hlast : d.level = s.levels.size := by omega
    rw [if_neg hold, Array.getElem?_push, hlast]
    by_cases hk : k = s.levels.size
    · subst hk
      simp
    · rw [if_neg hk, if_neg hk]

theorem levelCount_record (h : d.level ≤ s.levelCount) :
    (s.record d).levelCount = max s.levelCount (d.level + 1) := by
  show (enter s.levels d.level d.cid).size = max s.levels.size (d.level + 1)
  have hsize : d.level ≤ s.levels.size := h
  unfold enter
  split
  · rw [Array.size_modify]
    omega
  · rw [Array.size_push]
    omega

theorem isSome_level?_iff {cid : Nat} : (s.level? cid).isSome ↔ cid < s.leveledCount := by
  simp [level?, leveledCount]

theorem lt_leveledCount {cid k : Nat} (h : s.level? cid = some k) : cid < s.leveledCount :=
  isSome_level?_iff.mp (by rw [h]; rfl)

/-! ## Exact tables -/

/-- The table holds each leveled constraint at its level, in the order of the ids. It has no empty
level, and wires are produced at its levels only. -/
structure Exact (s : Schedule) : Prop where
  mem_idsAt_iff : ∀ k cid, cid ∈ s.idsAt k ↔ s.level? cid = some k
  nonempty : ∀ k, k < s.levelCount → s.idsAt k ≠ #[]
  ascending : ∀ k, (s.idsAt k).toList.Pairwise (· < ·)
  wireLevel_lt : ∀ w k, s.wireLevel? w = some k → k < s.levelCount

theorem exact_empty : ({} : Schedule).Exact where
  mem_idsAt_iff k cid := by simp [idsAt, level?]
  nonempty k hk := absurd hk (Nat.not_lt_zero k)
  ascending k := by simp [idsAt]
  wireLevel_lt w k h := by
    rw [show ({} : Schedule).wireLevel? w = none from WireMap.get?_empty w] at h
    cases h

/-- Recording the next constraint at a level of the table, or right after the last one, keeps the
table exact. -/
theorem Exact.record (hs : s.Exact) (hcid : d.cid = s.leveledCount)
    (hlevel : d.level ≤ s.levelCount) : (s.record d).Exact := by
  refine ⟨?_, ?_, ?_, ?_⟩
  · intro k cid
    rw [idsAt_record hlevel, level?_record]
    by_cases hnext : cid = s.leveledCount
    · -- the next constraint has no level before, so it is at none of the old levels
      have hnone : cid ∉ s.idsAt k := by
        intro hmem
        have hlt := lt_leveledCount ((hs.mem_idsAt_iff k cid).mp hmem)
        omega
      by_cases hk : k = d.level
      · rw [if_pos hk, if_pos hnext, hcid, hnext, hk]
        simp
      · rw [if_neg hk, if_pos hnext, Option.some.injEq]
        exact ⟨fun h => absurd h hnone, fun h => absurd h.symm hk⟩
    · rw [if_neg hnext, ← hs.mem_idsAt_iff]
      by_cases hk : k = d.level
      · rw [if_pos hk, Array.mem_push, hcid]
        simp [hnext]
      · rw [if_neg hk]
  · intro k hk
    rw [levelCount_record hlevel] at hk
    rw [idsAt_record hlevel]
    by_cases heq : k = d.level
    · rw [if_pos heq]
      simp
    · rw [if_neg heq]
      exact hs.nonempty k (by omega)
  · intro k
    rw [idsAt_record hlevel]
    by_cases heq : k = d.level
    · rw [if_pos heq, Array.toList_push, List.pairwise_append]
      refine ⟨hs.ascending k, List.pairwise_singleton _ _, ?_⟩
      intro i hi j hj
      -- what stands at a level has one already, so its id is below the next one
      have hold := lt_leveledCount ((hs.mem_idsAt_iff k i).mp (Array.mem_toList_iff.mp hi))
      rw [List.mem_singleton.mp hj, hcid]
      exact hold
    · rw [if_neg heq]
      exact hs.ascending k
  · intro w k hk
    rw [wireLevel?_record] at hk
    rw [levelCount_record hlevel]
    split at hk
    · cases hk
      omega
    · have hlt := hs.wireLevel_lt w k hk
      omega

/-- The levels of an exact table are the constraint ids up to order. -/
theorem Exact.flatMap_perm (hs : s.Exact) :
    (s.levels.toList.flatMap Array.toList).Perm (List.range s.leveledCount) := by
  have hidsAt : ∀ i (hi : i < s.levels.size), s.levels[i] = s.idsAt i := by
    intro i hi
    rw [idsAt, Array.getElem?_eq_getElem hi]
    rfl
  have hnodup : (s.levels.toList.flatMap Array.toList).Nodup := by
    refine List.nodup_flatMap.mpr ⟨?_, List.pairwise_iff_getElem.mpr ?_⟩
    · intro ids hids
      obtain ⟨i, hi, rfl⟩ := Array.mem_iff_getElem.mp (Array.mem_toList_iff.mp hids)
      rw [hidsAt i hi]
      exact (hs.ascending i).imp Nat.ne_of_lt
    · intro i j hi hj hlt cid hcidi hcidj
      -- an id at two levels would have both
      rw [Array.length_toList] at hi hj
      rw [Array.getElem_toList, hidsAt i hi, Array.mem_toList_iff, hs.mem_idsAt_iff] at hcidi
      rw [Array.getElem_toList, hidsAt j hj, Array.mem_toList_iff, hs.mem_idsAt_iff] at hcidj
      rw [hcidi] at hcidj
      cases hcidj
      omega
  refine (List.perm_ext_iff_of_nodup hnodup List.nodup_range).mpr ?_
  intro cid
  rw [List.mem_flatMap, List.mem_range, ← isSome_level?_iff, Option.isSome_iff_exists]
  constructor
  · rintro ⟨ids, hids, hcid⟩
    obtain ⟨i, hi, rfl⟩ := Array.mem_iff_getElem.mp (Array.mem_toList_iff.mp hids)
    rw [hidsAt i hi, Array.mem_toList_iff] at hcid
    exact ⟨i, (hs.mem_idsAt_iff i cid).mp hcid⟩
  · rintro ⟨k, hk⟩
    obtain ⟨ids, hget, hcid⟩ := mem_idsAt.mp ((hs.mem_idsAt_iff k cid).mpr hk)
    have hids : ids ∈ s.levels := Array.mem_of_getElem? hget
    exact ⟨ids, Array.mem_toList_iff.mpr hids, Array.mem_toList_iff.mpr hcid⟩

end Schedule

/-! ## Systems -/

namespace System

variable {F : Type} {s t : System F}

/-- What a system keeps to about its schedule. -/
structure WellScheduled (s : System F) : Prop where
  exact : s.schedule.Exact
  stored : s.schedule.leveledCount ≤ s.constraintCount
  internal : ∀ w k, s.schedule.wireLevel? w = some k →
    w.index < s.layout.wireCount ∧ s.layout.isInput w = false

/-- A sweep gets to a level of the table, or right after the last one. -/
theorem Gathers.level_le {reads : List Wire} {v : Sweep} (hv : s.Gathers reads v)
    (hs : s.schedule.Exact) : v.level ≤ s.schedule.levelCount := by
  rcases hv.level with hzero | ⟨w, l, -, hrole, hlevel⟩
  · omega
  · have hlt := hs.wireLevel_lt w l (standing_of_role hrole).2
    omega

theorem Effect.wellScheduled {c : Call F} {ds : List Leveled} (h : s.Effect c ds t)
    (hvalid : s.hints.Valid s.layout) (hs : s.WellScheduled) : t.WellScheduled := by
  cases h with
  | nothing => exact hs
  | interned => exact ⟨hs.exact, hs.stored, hs.internal⟩
  | registered => exact ⟨hs.exact, hs.stored, hs.internal⟩
  | declared hl =>
      refine ⟨hs.exact, hs.stored, ?_⟩
      -- a produced wire was declared before, and it keeps its standing
      intro w k hk
      obtain ⟨hdeclared, hinternal⟩ := hs.internal w k hk
      refine ⟨Nat.lt_of_lt_of_le hdeclared hl.wireCount_le, ?_⟩
      rw [hl.isInput_eq w hdeclared, hinternal]
  | stored =>
      refine ⟨hs.exact, ?_, hs.internal⟩
      show s.schedule.leveledCount ≤ (s.entries.push _).size
      rw [Array.size_push]
      exact Nat.le_succ_of_le hs.stored
  | leveled hentries hnext hsweep =>
      have hv := gathers_of_sweep hsweep
      refine ⟨hs.exact.record rfl (hv.level_le hs.exact), ?_, ?_⟩
      · show (s.schedule.record _).leveledCount ≤ _
        rw [Schedule.leveledCount_record]
        exact hnext
      · intro w k hk
        replace hk : (s.schedule.record _).wireLevel? w = some k := hk
        rw [Schedule.wireLevel?_record] at hk
        split at hk
        · rename_i hout
          show w.index < s.layout.wireCount ∧ s.layout.isInput w = false
          exact internal_of_mem_outputs hv hvalid hout
        · exact hs.internal w k hk

variable [Zero F] [One F] [Add F] [Neg F] [DecidableEq F]

theorem wellScheduled_run (hvalid : s.hints.Valid s.layout) (hs : s.WellScheduled)
    (calls : List (Call F)) : (s.run calls).WellScheduled := by
  induction calls generalizing s with
  | nil => exact hs
  | cons c rest ih =>
      have heffect := s.effect_of_call c
      exact ih (heffect.valid hvalid) (heffect.wellScheduled hvalid hs)

theorem wellScheduled_of_reachable (h : s.Reachable) : s.WellScheduled := by
  obtain ⟨config, calls, rfl⟩ := h
  refine wellScheduled_run (HintRegistry.valid_empty _) ⟨Schedule.exact_empty, ?_, ?_⟩ calls
  · exact Nat.le_refl 0
  · intro w k hk
    rw [show (empty config : System F).schedule.wireLevel? w = none from WireMap.get?_empty w] at hk
    cases hk

/-- The table of levels is an exact partition of the leveled constraints, which are the first ones
that are stored. No level is empty and each is in the order of the ids. Wires are produced at levels
of the table, and only declared internal wires are. -/
theorem levels_partition (hs : s.Reachable) :
    s.schedule.leveledCount ≤ s.constraintCount ∧
      (∀ cid, (s.schedule.level? cid).isSome ↔ cid < s.schedule.leveledCount) ∧
      (∀ k cid, (∃ ids, s.schedule.levels[k]? = some ids ∧ cid ∈ ids) ↔
        s.schedule.level? cid = some k) ∧
      (∀ ids ∈ s.schedule.levels, ids ≠ #[] ∧ ids.toList.Pairwise (· < ·)) ∧
      (s.schedule.levels.toList.flatMap Array.toList).Perm
        (List.range s.schedule.leveledCount) ∧
      ∀ w k, s.schedule.wireLevel? w = some k →
        k < s.schedule.levelCount ∧ w.index < s.layout.wireCount ∧
          s.layout.isInput w = false ∧ w ≠ .one := by
  obtain ⟨hexact, hstored, hinternal⟩ := wellScheduled_of_reachable hs
  refine ⟨hstored, fun _ => Schedule.isSome_level?_iff, ?_, ?_, hexact.flatMap_perm, ?_⟩
  · intro k cid
    rw [← Schedule.mem_idsAt]
    exact hexact.mem_idsAt_iff k cid
  · intro ids hids
    obtain ⟨k, hk, rfl⟩ := Array.mem_iff_getElem.mp hids
    have hidsAt : s.schedule.levels[k] = s.schedule.idsAt k := by
      rw [Schedule.idsAt, Array.getElem?_eq_getElem hk]
      rfl
    rw [hidsAt]
    exact ⟨hexact.nonempty k hk, hexact.ascending k⟩
  · intro w k hk
    obtain ⟨hdeclared, hinput⟩ := hinternal w k hk
    refine ⟨hexact.wireLevel_lt w k hk, hdeclared, hinput, ?_⟩
    -- the constant one is an input of every layout
    rintro rfl
    have hone : s.layout.isInput .one = true := Layout.isInput_iff.mpr s.layout.inputCount_pos
    rw [hone] at hinput
    cases hinput

/-- One constraint names an undeclared wire and is turned down, one expands a hint and then the hint
of its argument, and one is stored without a level. -/
def laggingRun : List (Call (Residue 17)) :=
  [.declarePublic "x", .declareInternal, .declareInternal, .declareInternal, registerOver [1] [2],
    registerOver [2] [3], appendOver [9], appendOver [3, 1], appendOver [4], appendOver [2, 4],
    .append {} none, .declareInternal]

theorem levels_partition_lagging :
    ((empty {}).run laggingRun).schedule.levels = #[#[0, 1], #[2]] ∧
      ((empty {}).run laggingRun).schedule.leveledCount <
        ((empty {}).run laggingRun).constraintCount ∧
      (∃ ids, ((empty {}).run laggingRun).schedule.levels[1]? = some ids ∧ 2 ∈ ids) ∧
      (((empty {}).run laggingRun).schedule.levels.toList.flatMap Array.toList).Perm
        (List.range 3) := by
  obtain ⟨-, -, hlevels, -, hperm, -⟩ := levels_partition ((reachable_empty {}).run laggingRun)
  have hcount : ((empty {}).run laggingRun).schedule.leveledCount = 3 := by cbv
  have hlevel : ((empty {}).run laggingRun).schedule.level? 2 = some 1 := by cbv
  rw [hcount] at hperm
  exact ⟨by cbv, by rw [hcount]; cbv, (hlevels 1 2).mpr hlevel, hperm⟩

end System

end RankOne

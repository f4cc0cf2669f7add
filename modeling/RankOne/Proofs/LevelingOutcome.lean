import Mathlib.Data.Set.Card
import Mathlib.Order.Bounds.Basic
import RankOne.Event
import RankOne.Proofs.RefusedLevelings

/-!
# What one leveling does

The wires that the reads of a constraint lead to are the least closed set (`System.Closed`,
`System.isLeast_leadsTo`): the reads are in it, and along with an unproduced output of a hint the
arguments of the hint. They decide all that a leveling does (`System.leveling_exact`). The level is
right above the greatest producing level in the set, and the constraint produces the unproduced
wires in it, with each output of a hint all the others (`System.producedFrom`). The order in which
a sweep meets the wires has no say in this.
-/

namespace RankOne

/-- A wire stands for no hint if it is no output of any. -/
theorem HintRegistry.Valid.producer?_eq_none_iff {r : HintRegistry} {l : Layout} (hr : r.Valid l)
    {w : Wire} : r.producer? w = none ↔ ∀ h ∈ r.hints, w ∉ h.outputs := by
  constructor
  · intro hnone h hmem hw
    obtain ⟨i, hget⟩ := Array.mem_iff_getElem?.mp hmem
    rw [hr.producer?_eq_some_iff_mem.mpr ⟨hget, hw⟩] at hnone
    cases hnone
  · intro hall
    cases hproducer : r.producer? w with
    | none => rfl
    | some p =>
        obtain ⟨hget, hw⟩ := hr.producer?_eq_some_iff_mem.mp hproducer
        exact absurd hw (hall p.2 (Array.mem_of_getElem? hget))

namespace System

variable {F : Type} {s : System F} {reads : List Wire}

/-! ## Roles in a reachable system -/

/-- A wire that is no input and has no producing level. -/
def Unproduced (s : System F) (w : Wire) : Prop :=
  s.layout.isInput w = false ∧ s.schedule.wireLevel? w = none

/-- The unproduced outputs of a hint stand for the hint. -/
theorem role_eq_hinted_iff (hs : s.hints.Valid s.layout) {w : Wire} {i : Nat} {h : Hint} :
    s.role w = .ok (.hinted i h) ↔
      s.Unproduced w ∧ s.hints.hints[i]? = some h ∧ w ∈ h.outputs := by
  rw [role_eq_ok_iff, Standing, hs.producer?_eq_some_iff_mem, Unproduced, and_assoc]
  exact and_iff_right_of_imp fun h => (hs.internal_of_mem h.2.2.1 h.2.2.2).1

/-- The unproduced wires that no hint computes are free. -/
theorem role_eq_free_iff (hs : s.hints.Valid s.layout) {w : Wire} :
    s.role w = .ok .free ↔
      w.index < s.layout.wireCount ∧ s.Unproduced w ∧ ∀ h ∈ s.hints.hints, w ∉ h.outputs := by
  rw [role_eq_ok_iff, Standing, Unproduced, and_assoc, hs.producer?_eq_none_iff]

/-- The wires with a producing level stand at it. -/
theorem role_eq_produced_iff (hs : s.WellScheduled) {w : Wire} {k : Nat} :
    s.role w = .ok (.produced k) ↔ s.schedule.wireLevel? w = some k := by
  rw [role_eq_ok_iff]
  constructor
  · exact fun h => h.2.2
  · intro hk
    exact ⟨(hs.internal w k hk).1, (hs.internal w k hk).2, hk⟩

/-! ## The least closed set -/

/-- A set of wires that holds some reads and, with an unproduced output of a hint, the arguments of
the hint. -/
structure Closed (s : System F) (reads : List Wire) (ws : Set Wire) : Prop where
  reads : ∀ w ∈ reads, w ∈ ws
  arguments : ∀ w ∈ ws, s.Unproduced w → ∀ h ∈ s.hints.hints, w ∈ h.outputs →
    ∀ u ∈ h.inputWires, u ∈ ws

theorem isLeast_leadsTo (hs : s.hints.Valid s.layout) (reads : List Wire) :
    IsLeast {us | s.Closed reads us} {w | s.LeadsTo reads w} := by
  constructor
  · refine ⟨fun w => .read, ?_⟩
    intro w hw hunproduced h hmem hout u hu
    obtain ⟨i, hget⟩ := Array.mem_iff_getElem?.mp hmem
    exact .argument hw ((role_eq_hinted_iff hs).mpr ⟨hunproduced, hget, hout⟩) hu
  · intro ws hclosed w hw
    induction hw with
    | read hmem => exact hclosed.reads _ hmem
    | argument hu hrole harg ih =>
        obtain ⟨hunproduced, hget, hout⟩ := (role_eq_hinted_iff hs).mp hrole
        exact hclosed.arguments _ ih hunproduced _ (Array.mem_of_getElem? hget) hout _ harg

/-- The wires that a constraint produces if it depends on some wires: of these the unproduced ones,
and all outputs of each hint that has an unproduced output among them. -/
def producedFrom (s : System F) (ws : Set Wire) : Set Wire :=
  {w | w ∈ ws ∧ s.Unproduced w ∧ ∀ h ∈ s.hints.hints, w ∉ h.outputs} ∪
    {w | ∃ h ∈ s.hints.hints, w ∈ h.outputs ∧
      ∃ u ∈ h.outputs, u ∈ ws ∧ s.schedule.wireLevel? u = none}

/-! ## What a sweep comes to -/

/-- A sweep that gathers is one level above all that was produced before. -/
theorem Gathers.level_cases {v : Sweep} (hv : s.Gathers reads v) (hs : s.WellScheduled) :
    (v.level = 0 ∧ ∀ w, s.LeadsTo reads w → s.schedule.wireLevel? w = none) ∨
      ∃ l, IsGreatest {k | ∃ w, s.LeadsTo reads w ∧ s.schedule.wireLevel? w = some k} l ∧
        v.level = l + 1 := by
  have hbelow : ∀ w k, s.LeadsTo reads w → s.schedule.wireLevel? w = some k → k < v.level := by
    intro w k hw hk
    have hmet := hv.met w hw
    rw [Sweep.Met, (role_eq_produced_iff hs).mpr hk] at hmet
    exact hmet
  rcases hv.level with hzero | ⟨w, l, hw, hrole, hlevel⟩
  · left
    refine ⟨hzero, fun w hw => ?_⟩
    cases hk : s.schedule.wireLevel? w with
    | none => rfl
    | some k =>
        have hlt := hbelow w k hw hk
        omega
  · right
    refine ⟨l, ⟨⟨w, hw, (role_eq_produced_iff hs).mp hrole⟩, ?_⟩, hlevel⟩
    rintro k ⟨u, hu, hk⟩
    have hlt := hbelow u k hu hk
    omega

theorem Gathers.mem_outputs_iff {v : Sweep} (hv : s.Gathers reads v)
    (hs : s.hints.Valid s.layout) {w : Wire} :
    w ∈ v.outputs ↔ w ∈ s.producedFrom {w | s.LeadsTo reads w} := by
  constructor
  · intro hw
    rcases hv.outputs w hw with ⟨hleads, hrole⟩ | ⟨i, hi, h, hget, hmem⟩
    · exact .inl ⟨hleads, ((role_eq_free_iff hs).mp hrole).2⟩
    · -- the hint was expanded at an unproduced output of it
      obtain ⟨u, g, hleads, hrole⟩ := hv.expanded i hi
      obtain ⟨hunproduced, hgetg, hu⟩ := (role_eq_hinted_iff hs).mp hrole
      rw [hget] at hgetg
      cases hgetg
      exact .inr ⟨h, Array.mem_of_getElem? hget, hmem, u, hu, hleads, hunproduced.2⟩
  · rintro (⟨hleads, hunproduced, hnone⟩ | ⟨h, hmem, hw, u, hu, hleads, hnone⟩)
    · obtain ⟨r, hr⟩ := hv.exists_role hleads
      have hrole : s.role w = .ok .free :=
        (role_eq_free_iff hs).mpr ⟨(role_eq_ok_iff.mp hr).1, hunproduced, hnone⟩
      have hmet := hv.met w hleads
      rw [Sweep.Met, hrole] at hmet
      exact hmet
    · obtain ⟨i, hget⟩ := Array.mem_iff_getElem?.mp hmem
      have hrole : s.role u = .ok (.hinted i h) :=
        (role_eq_hinted_iff hs).mpr ⟨⟨(hs.internal_of_mem hget hu).2, hnone⟩, hget, hu⟩
      have hmet := hv.met u hleads
      rw [Sweep.Met, hrole] at hmet
      exact hv.hint_outputs i hmet h hget w hw

/-- The number of gathered outputs. -/
theorem Gathers.length_outputs {v : Sweep} (hv : s.Gathers reads v)
    (hs : s.hints.Valid s.layout) :
    v.outputs.length = (s.producedFrom {w | s.LeadsTo reads w}).ncard := by
  have hset : s.producedFrom {w | s.LeadsTo reads w} = (v.outputs.toFinset : Set Wire) := by
    ext w
    rw [← hv.mem_outputs_iff hs, Finset.mem_coe, List.mem_toFinset]
  rw [hset, Set.ncard_coe_finset, List.toFinset_card_of_nodup hv.nodup]

/-! ## Levelings -/

variable [Zero F] [One F] [Add F] [Neg F] [DecidableEq F]

/-- The next constraint of a reachable system that is said to read declared wires gets its level.
Let `ws` be the least closed set of the reads. The level is zero if no wire of `ws` has a producing
level, and otherwise one above the greatest of these. The constraint is entered at its level and
nowhere else, exactly the wires produced from `ws` are produced at this level, as many as the event
says, and nothing else changes. -/
theorem leveling_exact (hs : s.Reachable)
    (hstored : s.schedule.leveledCount < s.constraintCount)
    (hreads : ∀ w ∈ reads, w.index < s.layout.wireCount) :
    let cid := s.schedule.leveledCount
    let ws : Set Wire := {w | s.LeadsTo reads w}
    IsLeast {us | s.Closed reads us} ws ∧
      ∃ d t, s.level cid reads = (.ok d, t) ∧
        ((d.level = 0 ∧ ∀ w ∈ ws, s.schedule.wireLevel? w = none) ∨
          ∃ l, IsGreatest {k | ∃ w ∈ ws, s.schedule.wireLevel? w = some k} l ∧ d.level = l + 1) ∧
        (∀ w ∈ s.producedFrom ws, t.schedule.wireLevel? w = some d.level) ∧
        (∀ w ∉ s.producedFrom ws, t.schedule.wireLevel? w = s.schedule.wireLevel? w) ∧
        (∀ c, t.schedule.level? c = if c = cid then some d.level else s.schedule.level? c) ∧
        (∀ k, t.schedule.idsAt k =
          if k = d.level then (s.schedule.idsAt k).push cid else s.schedule.idsAt k) ∧
        t.schedule.levelCount = max s.schedule.levelCount (d.level + 1) ∧
        Event.leveled d = ⟨.trace, "leveled constraint",
          [("cid", toString cid), ("level", toString d.level),
            ("outputs", toString (s.producedFrom ws).ncard)]⟩ ∧
        t = { s with schedule := t.schedule } := by
  intro cid ws
  have hexact := exact_of_reachable hs
  have hvalid := hexact.toValid
  have hscheduled := wellScheduled_of_reachable hs
  obtain ⟨v, hsweep⟩ := exists_sweep_of_declared hexact hreads
  have hv := gathers_of_sweep hsweep
  have hfits : v.level ≤ s.schedule.levelCount := hv.level_le hscheduled.exact
  refine ⟨isLeast_leadsTo hvalid reads, v.leveled cid reads, _,
    level_eq_ok_iff.mpr ⟨rfl, hstored, v, hsweep, rfl, rfl⟩, hv.level_cases hscheduled, ?_, ?_,
    fun c => Schedule.level?_record _ _ c, fun k => Schedule.idsAt_record hfits k,
    Schedule.levelCount_record hfits, ?_, rfl⟩
  · intro w hw
    exact (Schedule.wireLevel?_record _ _ w).trans (if_pos ((hv.mem_outputs_iff hvalid).mpr hw))
  · intro w hw
    refine (Schedule.wireLevel?_record _ _ w).trans (if_neg fun hout => hw ?_)
    exact (hv.mem_outputs_iff hvalid).mp hout
  · rw [← hv.length_outputs hvalid]
    rfl

/-- Two hints that read each other's outputs, and a hint that is registered when wire 5 is produced
at level 0 already. -/
def tangledRun : List (Call (Residue 17)) :=
  [.declarePublic "x", .declareInternal, .declareInternal, .declareInternal, .declareInternal,
    .declareInternal, .declareInternal, registerOver [3, 1] [2], registerOver [2, 4] [3],
    appendOver [5], appendOver [5, 4], registerOver [] [5, 6], .append {} none]

/-- The reads lead to wire 4, which is produced at level 1, so the constraint gets level 2. It
produces wire 3, to which wire 2 leads, and wire 5 along with wire 6. -/
theorem leveling_exact_tangled :
    ∃ d t, ((empty {}).run tangledRun).level 2 [⟨2⟩, ⟨6⟩, ⟨2⟩, ⟨7⟩, ⟨1⟩] = (.ok d, t) ∧
      d.level = 2 ∧ t.schedule.wireLevel? ⟨3⟩ = some 2 ∧ t.schedule.wireLevel? ⟨4⟩ = some 1 ∧
      t.schedule.wireLevel? ⟨5⟩ = some 2 ∧ t.schedule.idsAt 2 = #[2] := by
  have hreachable : ((empty {}).run tangledRun).Reachable := (reachable_empty {}).run tangledRun
  have hhints : ((empty {}).run tangledRun).hints.hints =
      #[hintOver [3, 1] [2], hintOver [2, 4] [3], hintOver [] [5, 6]] := by cbv
  obtain ⟨hcount, hstored, hwires, hlevels, hlast⟩ :
      ((empty {}).run tangledRun).schedule.leveledCount = 2 ∧
        ((empty {}).run tangledRun).constraintCount = 3 ∧
        ((empty {}).run tangledRun).layout.wireCount = 8 ∧
        ((empty {}).run tangledRun).schedule.levelCount = 2 ∧
        ((empty {}).run tangledRun).schedule.idsAt 2 = #[] := by cbv
  obtain ⟨htwo, hthree, hfour, hsix⟩ :
      ((empty {}).run tangledRun).Unproduced ⟨2⟩ ∧ ((empty {}).run tangledRun).Unproduced ⟨3⟩ ∧
        ((empty {}).run tangledRun).schedule.wireLevel? ⟨4⟩ = some 1 ∧
        ((empty {}).run tangledRun).schedule.wireLevel? ⟨6⟩ = none := by cbv
  have hreads : ∀ w ∈ [(⟨2⟩ : Wire), ⟨6⟩, ⟨2⟩, ⟨7⟩, ⟨1⟩],
      w.index < ((empty {}).run tangledRun).layout.wireCount := by
    rw [hwires]
    decide
  obtain ⟨⟨hclosed, -⟩, d, t, hok, hlevel, hproduced, hkept, -, hids, -⟩ :=
    leveling_exact hreachable (by rw [hcount, hstored]; decide) hreads
  rw [hcount] at hok hids
  -- each hint leads to the arguments of the next one
  have hreached := hclosed.arguments ⟨2⟩ (hclosed.reads ⟨2⟩ (by decide)) htwo (hintOver [3, 1] [2])
    (by simp [hhints]) (by decide) ⟨3⟩ (by decide)
  have hmet := hclosed.arguments ⟨3⟩ hreached hthree (hintOver [2, 4] [3])
    (by simp [hhints]) (by decide) ⟨4⟩ (by decide)
  have htop : d.level = 2 := by
    rcases hlevel with ⟨-, hnone⟩ | ⟨l, ⟨⟨w, -, hw⟩, hgreatest⟩, hl⟩
    · rw [hnone ⟨4⟩ hmet] at hfour
      cases hfour
    · have hle : 1 ≤ l := hgreatest ⟨⟨4⟩, hmet, hfour⟩
      have hlt := (wellScheduled_of_reachable hreachable).exact.wireLevel_lt w l hw
      omega
  rw [htop] at hproduced hids
  refine ⟨d, t, hok, htop, hproduced ⟨3⟩ ?_, (hkept ⟨4⟩ ?_).trans hfour, hproduced ⟨5⟩ ?_, ?_⟩
  · exact .inr ⟨hintOver [2, 4] [3], by simp [hhints], by decide, ⟨3⟩, by decide, hreached,
      hthree.2⟩
  · rintro (⟨-, ⟨-, hnone⟩, -⟩ | ⟨h, hmem, hout, -⟩)
    · rw [hfour] at hnone
      cases hnone
    · rw [hhints] at hmem
      revert h
      decide
  · have hread := hclosed.reads ⟨6⟩ (by decide)
    exact .inr ⟨hintOver [] [5, 6], by simp [hhints], by decide, ⟨6⟩, by decide, hread, hsix⟩
  · rw [hids 2, if_pos rfl, hlast]
    rfl

end System

end RankOne

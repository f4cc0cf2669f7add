import Mathlib.Data.List.Induction
import Mathlib.Data.List.Pairwise
import RankOne.Proofs.Growth

/-!
# The levelings of a run

A schedule is what its levelings have recorded, one after another, and nothing else
(`System.schedule_run`). Every leveling is the sweep of the system in which it came about
(`System.exists_system_of_leveling`). Constraints are leveled in the order of their ids
(`System.cid_of_levelings`), and as long as no two of them produce the same wire, its producing
level is that of its producer (`Schedule.SoleProducers.wireLevel?`).
-/

namespace RankOne

/-! ## Replaying levelings -/

namespace Schedule

variable {ds : List Leveled} {w : Wire}

/-- The schedule that some levelings lead to. -/
def replay (ds : List Leveled) : Schedule := ds.foldl record {}

@[simp] theorem replay_nil : replay [] = {} := rfl

@[simp] theorem replay_concat (ds : List Leveled) (d : Leveled) :
    replay (ds ++ [d]) = (replay ds).record d := by
  simp only [replay, List.foldl_append, List.foldl_cons, List.foldl_nil]

theorem wireLevel?_empty (w : Wire) : ({} : Schedule).wireLevel? w = none := WireMap.get?_empty w

theorem wireLevel?_record_eq_none_iff (s : Schedule) (d : Leveled) (w : Wire) :
    (s.record d).wireLevel? w = none ↔ w ∉ d.outputs ∧ s.wireLevel? w = none := by
  rw [wireLevel?_record]
  by_cases hw : w ∈ d.outputs <;> simp [hw]

theorem leveledCount_replay (ds : List Leveled) : (replay ds).leveledCount = ds.length := by
  induction ds using List.reverseRecOn with
  | nil => rfl
  | append_singleton ds d ih =>
      rw [replay_concat, leveledCount_record, ih, List.length_append, List.length_singleton]

/-- The n-th constraint has the level of the n-th leveling. -/
theorem level?_replay (ds : List Leveled) (cid : Nat) :
    (replay ds).level? cid = ds[cid]?.map Leveled.level := by
  induction ds using List.reverseRecOn with
  | nil => rfl
  | append_singleton ds d ih =>
      rw [replay_concat, level?_record, leveledCount_replay, ih, List.getElem?_append]
      by_cases hlt : cid < ds.length
      · rw [if_neg (by omega), if_pos hlt]
      · rw [if_neg hlt]
        by_cases heq : cid = ds.length
        · simp [heq]
        · have hout : ¬ cid - ds.length < 1 := by omega
          simp [heq, hout, hlt]

/-- A wire with a producing level was produced by one of the levelings. -/
theorem exists_producer {level : Nat} (h : (replay ds).wireLevel? w = some level) :
    ∃ p ∈ ds, w ∈ p.outputs ∧ p.level = level := by
  -- the last leveling decides if it produces the wire, and otherwise those before it do
  induction ds using List.reverseRecOn with
  | nil =>
      rw [replay_nil, wireLevel?_empty] at h
      cases h
  | append_singleton ds d ih =>
      rw [replay_concat, wireLevel?_record] at h
      split at h
      · rename_i hw
        exact ⟨d, by simp, hw, Option.some.inj h⟩
      · obtain ⟨p, hp, hpw⟩ := ih h
        exact ⟨p, List.mem_append_left _ hp, hpw⟩

/-- A wire that some leveling produced has a producing level. -/
theorem exists_wireLevel {p : Leveled} (hp : p ∈ ds) (hw : w ∈ p.outputs) :
    ∃ level, (replay ds).wireLevel? w = some level := by
  induction ds using List.reverseRecOn with
  | nil => cases hp
  | append_singleton ds d ih =>
      rw [replay_concat, wireLevel?_record]
      by_cases hd : w ∈ d.outputs
      · exact ⟨d.level, if_pos hd⟩
      · rw [if_neg hd]
        rcases List.mem_append.mp hp with hp | hp
        · exact ih hp
        · rw [List.mem_singleton.mp hp] at hw
          exact absurd hw hd

theorem wireLevel?_replay_eq_none_iff :
    (replay ds).wireLevel? w = none ↔ ∀ p ∈ ds, w ∉ p.outputs := by
  constructor
  · intro hnone p hp hw
    obtain ⟨level, hlevel⟩ := exists_wireLevel hp hw
    rw [hnone] at hlevel
    cases hlevel
  · intro hunproduced
    cases hlevel : (replay ds).wireLevel? w with
    | none => rfl
    | some level =>
        obtain ⟨p, hp, hw, -⟩ := exists_producer hlevel
        exact absurd hw (hunproduced p hp)

/-- No two levelings produce the same wire. -/
def SoleProducers (ds : List Leveled) : Prop :=
  ds.Pairwise fun p q => ∀ w ∈ p.outputs, w ∉ q.outputs

theorem SoleProducers.eq {p q : Leveled} (h : SoleProducers ds) (hp : p ∈ ds) (hq : q ∈ ds)
    (hpw : w ∈ p.outputs) (hqw : w ∈ q.outputs) : p = q := by
  -- to produce nothing in common is symmetric, so it does not matter which came first
  have hsymm : Std.Symm fun p q : Leveled => ∀ w ∈ p.outputs, w ∉ q.outputs :=
    ⟨fun _ _ hpq u hq hp => hpq u hp hq⟩
  by_contra hne
  exact List.Pairwise.forall h hp hq hne w hpw hqw

/-- Where the n-th leveling is that of constraint n, sole producers are told apart by their ids. -/
theorem soleProducers_iff (hcid : ∀ (n : Nat) (d : Leveled), ds[n]? = some d → d.cid = n) :
    SoleProducers ds ↔
      ∀ p ∈ ds, ∀ q ∈ ds, ∀ w ∈ p.outputs, w ∈ q.outputs → p.cid = q.cid := by
  constructor
  · intro h p hp q hq w hpw hqw
    rw [h.eq hp hq hpw hqw]
  · intro h
    refine List.pairwise_iff_getElem.mpr ?_
    intro i j hi hj hlt w hpw hqw
    have hsame := h _ (List.getElem_mem hi) _ (List.getElem_mem hj) w hpw hqw
    rw [hcid i _ (List.getElem?_eq_getElem hi), hcid j _ (List.getElem?_eq_getElem hj)] at hsame
    omega

/-- The producing level of a wire is the level of its sole producer. -/
theorem SoleProducers.wireLevel? {p : Leveled} (h : SoleProducers ds) (hp : p ∈ ds)
    (hw : w ∈ p.outputs) : (replay ds).wireLevel? w = some p.level := by
  obtain ⟨level, hlevel⟩ := exists_wireLevel hp hw
  obtain ⟨q, hq, hqw, rfl⟩ := exists_producer hlevel
  rw [hlevel, h.eq hp hq hw hqw]

end Schedule

/-! ## Levelings of runs -/

namespace System

variable {F : Type} [Zero F] [One F] [Add F] [Neg F] [DecidableEq F]

theorem levelings_cons (s : System F) (c : Call F) (rest : List (Call F)) :
    s.levelings (c :: rest) = (s.decision c).toList ++ (s.call c).2.levelings rest := by
  rw [levelings, answers, List.filterMap_cons, decision]
  cases leveling? (s.call c).1 <;> rfl

theorem levelings_append (s : System F) (xs ys : List (Call F)) :
    s.levelings (xs ++ ys) = s.levelings xs ++ (s.run xs).levelings ys := by
  induction xs generalizing s with
  | nil => rfl
  | cons c rest ih =>
      rw [List.cons_append, levelings_cons, levelings_cons, ih, List.append_assoc]
      rfl

omit [Zero F] [One F] [Add F] [Neg F] [DecidableEq F] in
theorem Effect.schedule_eq {s t : System F} {c : Call F} {ds : List Leveled}
    (h : s.Effect c ds t) : t.schedule = ds.foldl Schedule.record s.schedule := by
  cases h <;> rfl

/-- A schedule is what the levelings have recorded. -/
theorem schedule_run (s : System F) (calls : List (Call F)) :
    (s.run calls).schedule = (s.levelings calls).foldl Schedule.record s.schedule := by
  induction calls generalizing s with
  | nil => rfl
  | cons c rest ih =>
      rw [levelings_cons, List.foldl_append, ← (s.effect_of_call c).schedule_eq]
      exact ih (s.call c).2

theorem schedule_run_empty (config : Config) (calls : List (Call F)) :
    ((empty config : System F).run calls).schedule =
      Schedule.replay ((empty config : System F).levelings calls) :=
  schedule_run _ calls

/-- A call that decides a leveling sweeps over what the constraint is said to read. -/
theorem sweep_of_decision {s : System F} {c : Call F} {d : Leveled} (h : s.decision c = some d) :
    ∃ v, s.sweep d.reads = .ok v ∧ d = v.leveled s.schedule.leveledCount d.reads := by
  have heffect := s.effect_of_call c
  rw [h] at heffect
  generalize (s.call c).2 = t at heffect
  cases heffect with
  | leveled hentries hstored hsweep => exact ⟨_, hsweep, rfl⟩

/-- A leveling of a run came about in a system on the way. -/
theorem exists_system_of_leveling {s : System F} {calls : List (Call F)} {pre post : List Leveled}
    {d : Leveled} (h : s.levelings calls = pre ++ d :: post) :
    ∃ before after v, calls = before ++ after ∧ s.levelings before = pre ∧
      (s.run before).sweep d.reads = .ok v ∧
      d = v.leveled (s.run before).schedule.leveledCount d.reads := by
  induction calls generalizing s pre with
  | nil => simp [levelings, answers] at h
  | cons c rest ih =>
      rw [levelings_cons] at h
      -- the leveling is that of the first call, or one of the calls after it
      cases hdecision : s.decision c with
      | none =>
          rw [hdecision, Option.toList_none, List.nil_append] at h
          obtain ⟨before, after, v, rfl, hpre, hv⟩ := ih h
          exact ⟨c :: before, after, v, rfl, by rw [levelings_cons, hdecision]; exact hpre, hv⟩
      | some e =>
          rw [hdecision, Option.toList_some, List.singleton_append] at h
          cases pre with
          | nil =>
              cases h
              obtain ⟨v, hv⟩ := sweep_of_decision hdecision
              exact ⟨[], c :: rest, v, rfl, rfl, hv⟩
          | cons p pre =>
              rw [List.cons_append, List.cons.injEq] at h
              obtain ⟨rfl, h⟩ := h
              obtain ⟨before, after, v, rfl, hpre, hv⟩ := ih h
              refine ⟨c :: before, after, v, rfl, ?_, hv⟩
              rw [levelings_cons, hdecision, hpre]
              rfl

/-- Constraints are leveled in the order of their ids. -/
theorem cid_of_levelings {config : Config} {calls : List (Call F)} {pre post : List Leveled}
    {d : Leveled} (h : (empty config).levelings calls = pre ++ d :: post) :
    d.cid = pre.length := by
  obtain ⟨before, after, v, -, hpre, -, hd⟩ := exists_system_of_leveling h
  rw [hd]
  show ((empty config).run before).schedule.leveledCount = pre.length
  rw [schedule_run_empty, Schedule.leveledCount_replay, hpre]

/-- What is leveled earlier has a lower id. -/
theorem cid_lt_of_levelings {config : Config} {calls : List (Call F)} {pre post : List Leveled}
    {p d : Leveled} (h : (empty config).levelings calls = pre ++ d :: post) (hp : p ∈ pre) :
    p.cid < d.cid := by
  obtain ⟨pre', post', rfl⟩ := List.append_of_mem hp
  have hsplit : (empty config).levelings calls = pre' ++ p :: (post' ++ d :: post) := by
    rw [h, List.append_assoc, List.cons_append]
  rw [cid_of_levelings h, cid_of_levelings hsplit, List.length_append, List.length_cons]
  omega

theorem cid_of_getElem?_levelings {config : Config} {calls : List (Call F)} {n : Nat}
    {d : Leveled} (h : ((empty config : System F).levelings calls)[n]? = some d) : d.cid = n := by
  obtain ⟨hlt, hget⟩ := List.getElem?_eq_some_iff.mp h
  have hsplit := List.take_append_drop n ((empty config : System F).levelings calls)
  rw [List.drop_eq_getElem_cons hlt, hget] at hsplit
  rw [cid_of_levelings hsplit.symm, List.length_take]
  omega

/-- The level of a constraint is the one that its leveling has decided. -/
theorem level?_of_levelings {config : Config} {calls : List (Call F)} {d : Leveled}
    (hd : d ∈ (empty config : System F).levelings calls) :
    ((empty config).run calls).schedule.level? d.cid = some d.level := by
  obtain ⟨n, hn⟩ := List.mem_iff_getElem?.mp hd
  rw [schedule_run_empty, Schedule.level?_replay, cid_of_getElem?_levelings hn, hn]
  rfl

theorem map_cid_levelings (config : Config) (calls : List (Call F)) :
    ((empty config : System F).levelings calls).map Leveled.cid =
      List.range ((empty config).run calls).schedule.leveledCount := by
  rw [schedule_run_empty, Schedule.leveledCount_replay]
  refine List.ext_getElem (by simp) ?_
  intro n hn _
  rw [List.length_map] at hn
  rw [List.getElem_map, List.getElem_range]
  exact cid_of_getElem?_levelings (List.getElem?_eq_getElem hn)

end System

end RankOne

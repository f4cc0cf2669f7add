import RankOne.Proofs.Partition
import RankOne.Proofs.Storage
import RankOne.Proofs.UndeclaredWires

/-!
# The log of stored constraints

The constraints of a system are the log of the calls that made it grow (`System.growingCalls`): each
of them adds one constraint, under the number of those before it, and no call changes or takes away
what is there (`System.store_is_append_log`). Few constraints may have a source. The sources may be
kept in a list of their own, with an index from ids to places in it (`SourceIndex`); it answers as
if each source stood with its constraint (`SourceIndex.find?_ofSources`), and every call keeps it up
by entering the source of the constraint that it stores (`System.sourceIndex_call`).
-/

namespace RankOne

/-! ## Sources in a list of their own -/

/-- The sources that were given, in order, and for each constraint that has one its place. -/
structure SourceIndex where
  given : Array Provenance := #[]
  places : Std.ExtTreeMap Nat Nat := {}

namespace SourceIndex

/-- Enters what is said about the source of a constraint, if anything is. -/
def note (x : SourceIndex) (cid : Nat) : Option Provenance → SourceIndex
  | none => x
  | some source => ⟨x.given.push source, x.places.insert cid x.given.size⟩

/-- The source of a constraint, by way of its place. -/
def find? (x : SourceIndex) (cid : Nat) : Option Provenance :=
  x.places[cid]?.bind fun place => x.given[place]?

/-- The index of constraints whose ids count up from zero. -/
def ofSources (sources : List (Option Provenance)) : SourceIndex :=
  sources.zipIdx.foldl (fun x entry => x.note entry.2 entry.1) {}

theorem ofSources_concat (sources : List (Option Provenance)) (source : Option Provenance) :
    ofSources (sources ++ [source]) = (ofSources sources).note sources.length source := by
  simp [ofSources, List.zipIdx_append]

/-- Every place is one of the list. -/
def Sound (x : SourceIndex) : Prop :=
  ∀ (cid place : Nat), x.places[cid]? = some place → place < x.given.size

theorem Sound.note {x : SourceIndex} (hx : x.Sound) (cid : Nat) (source : Option Provenance) :
    (x.note cid source).Sound := by
  cases source with
  | none => exact hx
  | some source =>
      intro id place hplace
      show place < (x.given.push source).size
      rw [Array.size_push]
      rw [SourceIndex.note, Std.ExtTreeMap.getElem?_insert] at hplace
      split at hplace
      · cases hplace
        exact Nat.lt_succ_self _
      · exact Nat.lt_succ_of_lt (hx id place hplace)

/-- A constraint that is new has the source that is entered for it, and all others have theirs. -/
theorem Sound.find?_note {x : SourceIndex} (hx : x.Sound) {cid : Nat} (hnew : x.find? cid = none)
    (source : Option Provenance) (id : Nat) :
    (x.note cid source).find? id = if id = cid then source else x.find? id := by
  cases source with
  | none =>
      show x.find? id = _
      split
      · rename_i hid
        rw [hid, hnew]
      · rfl
  | some source =>
      show (x.places.insert cid x.given.size)[id]?.bind (fun place =>
        (x.given.push source)[place]?) = _
      by_cases hid : id = cid
      · simp [hid]
      · have hkept : (x.places.insert cid x.given.size)[id]? = x.places[id]? := by
          simp [Std.ExtTreeMap.getElem?_insert, Ne.symm hid]
        rw [hkept, if_neg hid, find?]
        -- a place that was handed out earlier does not move when the list gets longer
        cases hplace : x.places[id]? with
        | none => rfl
        | some place =>
            have hlt := hx id place hplace
            rw [Option.bind_some, Option.bind_some, Array.getElem?_push_lt hlt,
              Array.getElem?_eq_getElem hlt]

theorem sound_ofSources (sources : List (Option Provenance)) : (ofSources sources).Sound := by
  induction sources using List.reverseRecOn with
  | nil =>
      intro cid place hplace
      simp [ofSources] at hplace
  | append_singleton sources source ih =>
      rw [ofSources_concat]
      exact ih.note _ _

/-- The index answers as if each source stood with its constraint. -/
theorem find?_ofSources (sources : List (Option Provenance)) (cid : Nat) :
    (ofSources sources).find? cid = sources[cid]?.join := by
  induction sources using List.reverseRecOn generalizing cid with
  | nil => simp [ofSources, find?]
  | append_singleton sources source ih =>
      have hnew : (ofSources sources).find? sources.length = none := by
        rw [ih, List.getElem?_eq_none (Nat.le_refl _)]
        rfl
      rw [ofSources_concat, (sound_ofSources sources).find?_note hnew, ih]
      by_cases hcid : cid = sources.length
      · simp [hcid]
      · rw [if_neg hcid, List.getElem?_append]
        by_cases hlt : cid < sources.length
        · rw [if_pos hlt]
        · have hbeyond : ¬ cid - sources.length < 1 := by omega
          simp [hlt, hbeyond]

end SourceIndex

/-! ## Calls that make a system grow -/

/-- The constraint and the source that come with a call. -/
def Call.entry? {F : Type} : Call F → Option Entry
  | .append c source => some ⟨c, source⟩
  | .appendLeveled c source => some ⟨c, source⟩
  | _ => none

/-- The id of the constraint that an answer is about. -/
def Answer.cid? : Answer → Option Nat
  | .constraint cid => some cid
  | .leveled decided => some decided.cid
  | _ => none

namespace System

section

variable {F : Type} {s : System F} {c : Call F} {e : Entry}

/-- The index of the sources that stored constraints have. -/
def sourceIndex (s : System F) : SourceIndex := .ofSources (s.entries.toList.map Entry.source)

theorem find?_sourceIndex (s : System F) (cid : Nat) :
    s.sourceIndex.find? cid = s.source? cid := by
  rw [sourceIndex, SourceIndex.find?_ofSources, source?, List.getElem?_map, Array.getElem?_toList]
  cases s.entries[cid]? <;> rfl

/-- What a call stores is what comes with it. -/
theorem entry?_of_storedBy? (h : s.storedBy? c = some e) : c.entry? = some e := by
  cases c with
  | append => exact h
  | appendLeveled constraint source =>
      rw [storedBy?] at h
      split at h
      · exact h
      · cases h
  | _ => cases h

theorem entry?_eq_some_iff :
    c.entry? = some e ↔
      c = .append e.constraint e.source ∨ c = .appendLeveled e.constraint e.source := by
  obtain ⟨constraint, source⟩ := e
  cases c <;> simp [Call.entry?]

variable [Zero F] [One F] [Add F] [Neg F] [DecidableEq F]

/-- The calls after which a system holds more constraints than before, in order. -/
def growingCalls (s : System F) : List (Call F) → List (Call F)
  | [] => []
  | c :: rest =>
    if s.constraintCount < (s.call c).2.constraintCount then c :: (s.call c).2.growingCalls rest
    else (s.call c).2.growingCalls rest

/-! ### One call -/

theorem constraintCount_call (s : System F) (c : Call F) :
    (s.call c).2.constraintCount = s.constraintCount + (s.storedBy? c).toList.length := by
  have hlength := congrArg List.length (s.entries_call c)
  rwa [List.length_append, Array.length_toList, Array.length_toList] at hlength

/-- A call that stores a constraint enters its source under the next id. All other calls leave the
index of sources as it is. -/
theorem sourceIndex_call (s : System F) (c : Call F) :
    (s.call c).2.sourceIndex = (s.storedBy? c).elim s.sourceIndex
      fun e => s.sourceIndex.note s.constraintCount e.source := by
  rw [sourceIndex, entries_call]
  cases s.storedBy? c with
  | none =>
      rw [Option.toList_none, List.append_nil]
      rfl
  | some e =>
      have hcount : (s.entries.toList.map Entry.source).length = s.constraintCount := by
        rw [List.length_map, Array.length_toList]
        rfl
      rw [Option.toList_some, List.map_append, List.map_singleton, SourceIndex.ofSources_concat,
        hcount]
      rfl

/-- A constraint that is stored takes the next id, and the call answers with it unless it fails. -/
theorem cid?_of_storedBy? {answer : Answer} (hstored : s.storedBy? c = some e)
    (hanswer : (s.call c).1 = .ok answer) : answer.cid? = some s.constraintCount := by
  cases c with
  | append constraint source =>
      cases hanswer
      rfl
  | appendLeveled constraint source =>
      rcases happend : s.appendLeveled constraint source with ⟨result, t⟩
      rw [call, happend] at hanswer
      cases result with
      | error fault => cases hanswer
      | ok d =>
          cases hanswer
          obtain ⟨-, -, v, -, rfl, -⟩ := appendLeveled_eq_ok_iff.mp happend
          rfl
  | _ => cases hstored

/-! ### Runs -/

/-- The log of a run is what its growing calls have brought along. -/
theorem map_entry?_growingCalls (s : System F) (calls : List (Call F)) :
    (s.growingCalls calls).map Call.entry? = (s.stored calls).map some := by
  induction calls generalizing s with
  | nil => rfl
  | cons c rest ih =>
      have hcount := s.constraintCount_call c
      cases hstored : s.storedBy? c with
      | none =>
          rw [hstored, Option.toList_none, List.length_nil, Nat.add_zero] at hcount
          rw [growingCalls, if_neg (by omega), stored, hstored]
          exact ih _
      | some e =>
          rw [hstored, Option.toList_some, List.length_singleton] at hcount
          rw [growingCalls, if_pos (by omega), stored, hstored, List.map_cons,
            entry?_of_storedBy? hstored, ih]
          rfl

/-- A constraint stays under its id, with its source, while calls go on. -/
theorem getElem?_entries_run {cid : Nat} (hcid : cid < s.constraintCount)
    (calls : List (Call F)) : (s.run calls).entries[cid]? = s.entries[cid]? := by
  have hlt : cid < s.entries.toList.length := hcid
  rw [← Array.getElem?_toList, entries_run, List.getElem?_append_left hlt, Array.getElem?_toList]

/-- A level that was given is not changed by further levelings. -/
theorem level?_run {cid level : Nat} (h : s.schedule.level? cid = some level)
    (calls : List (Call F)) : (s.run calls).schedule.level? cid = some level := by
  rw [schedule_run]
  generalize s.schedule = schedule at h ⊢
  induction s.levelings calls generalizing schedule with
  | nil => exact h
  | cons d ds ih =>
      refine ih _ ?_
      have hlt := Schedule.lt_leveledCount h
      rw [Schedule.level?_record, if_neg (by omega), h]

/-- What a growing call brings along is found under the next id, whatever is called later. -/
theorem getElem?_entries_of_storedBy? (hstored : s.storedBy? c = some e) (later : List (Call F)) :
    ((s.call c).2.run later).entries[s.constraintCount]? = some e := by
  have hcount := s.constraintCount_call c
  rw [hstored, Option.toList_some, List.length_singleton] at hcount
  rw [getElem?_entries_run (by omega), ← Array.getElem?_toList, entries_call, hstored]
  exact List.getElem?_concat_length

/-- The stored constraints are the log of the calls that made the system grow, one for each, under
ids that count up from zero. A call that stores a constraint answers with its id unless it fails.
From then on the constraint is there with the source that came along, which is also what the index
of sources says, where the call enters it. Nothing is stored under other ids, and a level that was
given stays. -/
theorem store_is_append_log (config : Config) (calls : List (Call F)) :
    let s := (empty config : System F).run calls
    let log := (empty config : System F).growingCalls calls
    s.constraintCount = log.length ∧
    (∀ k c, log[k]? = some c → ∃ e : Entry,
      (c = .append e.constraint e.source ∨ c = .appendLeveled e.constraint e.source) ∧
        s.constraint? k = some e.constraint ∧ s.source? k = e.source) ∧
    (∀ c, (s.call c).2.constraintCount = s.constraintCount ∨
      (s.call c).2.constraintCount = s.constraintCount + 1 ∧ ∃ e : Entry,
        (c = .append e.constraint e.source ∨ c = .appendLeveled e.constraint e.source) ∧
        (∀ answer, (s.call c).1 = .ok answer → answer.cid? = some s.constraintCount) ∧
        ∀ later, let t := (s.call c).2.run later
          t.constraint? s.constraintCount = some e.constraint ∧
            t.source? s.constraintCount = e.source) ∧
    (∀ cid, s.constraints[cid]? = s.constraint? cid) ∧
    (∀ cid, s.sourceIndex.find? cid = s.source? cid) ∧
    (∀ c, (s.call c).2.sourceIndex = (s.storedBy? c).elim s.sourceIndex
      fun e => s.sourceIndex.note s.constraintCount e.source) ∧
    (∀ cid, s.constraintCount ≤ cid → s.constraint? cid = none ∧ s.source? cid = none) ∧
    ∀ cid level, s.schedule.level? cid = some level →
      ∀ later, (s.run later).schedule.level? cid = some level := by
  intro s log
  have hlog : log.map Call.entry? = s.entries.toList.map some := by
    rw [entries_run_empty]
    exact map_entry?_growingCalls _ calls
  refine ⟨?_, ?_, ?_, ?_, s.find?_sourceIndex, s.sourceIndex_call, ?_,
    fun cid level h => level?_run h⟩
  · have hlength := congrArg List.length hlog
    rw [List.length_map, List.length_map, Array.length_toList] at hlength
    exact hlength.symm
  · intro k c hk
    have hentry := congrArg (fun es => es[k]?) hlog
    simp only [List.getElem?_map, hk, Option.map_some, Array.getElem?_toList] at hentry
    cases hget : s.entries[k]? with
    | none =>
        rw [hget] at hentry
        cases hentry
    | some e =>
        rw [hget, Option.map_some, Option.some.injEq] at hentry
        exact ⟨e, entry?_eq_some_iff.mp hentry, by rw [constraint?, hget]; rfl,
          by rw [source?, hget]; rfl⟩
  · intro c
    have hcount := s.constraintCount_call c
    cases hstored : s.storedBy? c with
    | none =>
        rw [hstored] at hcount
        exact .inl hcount
    | some e =>
        rw [hstored] at hcount
        refine .inr ⟨hcount, e, entry?_eq_some_iff.mp (entry?_of_storedBy? hstored),
          fun answer => cid?_of_storedBy? hstored, fun later => ?_⟩
        have hget := getElem?_entries_of_storedBy? hstored later
        exact ⟨by rw [constraint?, hget]; rfl, by rw [source?, hget]; rfl⟩
  · intro cid
    rw [constraints, List.getElem?_map, Array.getElem?_toList, constraint?]
  · intro cid hcid
    have hget : s.entries[cid]? = none := Array.getElem?_eq_none hcid
    exact ⟨by rw [constraint?, hget]; rfl, by rw [source?, hget]; rfl⟩

end

/-- A constraint without a source waits for its level, one with a source is turned down and stored,
one is turned down and not stored, and one comes after them. -/
def sparseRun : List (Call (Residue 17)) :=
  [.declarePublic "x", .append (sumOver [1]) none, .appendLeveled {} (some ⟨"waiting", []⟩),
    .appendLeveled (sumOver [5]) (some ⟨"lost", []⟩), .append (sumOver [1, 1]) none,
    .level 0 [⟨1⟩], .append (sumOver [9]) (some ⟨"last", []⟩)]

theorem store_is_append_log_sparse :
    ((empty {}).run sparseRun).constraintCount = 4 ∧
      ((empty {}).run sparseRun).constraint? 2 = some (sumOver [1, 1]) ∧
      ((empty {}).run sparseRun).source? 2 = none ∧
      ((empty {}).run sparseRun).sourceIndex.find? 3 = some ⟨"last", []⟩ ∧
      ∀ later, (((empty {}).run sparseRun).run later).schedule.level? 0 = some 0 := by
  obtain ⟨hcount, hlog, -, -, hindex, -, -, hlevel⟩ := store_is_append_log {} sparseRun
  have hcalls : (empty {}).growingCalls sparseRun =
      [.append (sumOver [1]) none, .appendLeveled {} (some ⟨"waiting", []⟩),
        .append (sumOver [1, 1]) none, .append (sumOver [9]) (some ⟨"last", []⟩)] := by cbv
  rw [hcalls] at hcount hlog
  have hfirst : ((empty {}).run sparseRun).schedule.level? 0 = some 0 := by cbv
  obtain ⟨⟨third, thirdSource⟩, hthird, hconstraint, hsource⟩ := hlog 2 _ rfl
  obtain ⟨⟨last, lastSource⟩, hlast, -, hlastSource⟩ := hlog 3 _ rfl
  simp only [Call.append.injEq, reduceCtorEq, or_false] at hthird hlast
  obtain ⟨rfl, rfl⟩ := hthird
  obtain ⟨rfl, rfl⟩ := hlast
  exact ⟨hcount, hconstraint, hsource, (hindex 3).trans hlastSource, hlevel 0 0 hfirst⟩

end System

end RankOne

import Mathlib.Algebra.BigOperators.Group.List.Basic
import RankOne.Proofs.Machine.Operations
import RankOne.Proofs.Partition
import RankOne.Proofs.Storage

/-!
# Machines do not crash

A machine that holds a reachable system does with every call what the system does, and does not
crash (`Machine.Represents.call`), as long as wires and constraints can be counted in words.
A hint stands at the place that its outputs are entered under, all that a sweep gathers is declared,
so there is a place after it, and there are no more levels than constraints. So no run ends in a
crash, whatever it asks for (`Machine.never_crashes`).
-/

namespace RankOne

/-- Every level has a constraint, so there are no more levels than leveled constraints. -/
theorem Schedule.Exact.levelCount_le {s : Schedule} (hs : s.Exact) :
    s.levelCount ≤ s.leveledCount := by
  have hlength := hs.flatMap_perm.length_eq
  rw [List.length_flatMap, List.length_range] at hlength
  have hpos : ∀ n ∈ s.levels.toList.map fun ids => ids.toList.length, 1 ≤ n := by
    intro n hn
    obtain ⟨ids, hids, rfl⟩ := List.mem_map.mp hn
    obtain ⟨k, hk, rfl⟩ := Array.mem_iff_getElem.mp (Array.mem_toList_iff.mp hids)
    have hne := hs.nonempty k hk
    rw [Schedule.idsAt, Array.getElem?_eq_getElem hk] at hne
    exact Array.size_pos_iff.mpr hne
  have hle := List.length_le_sum_of_one_le _ hpos
  rw [hlength, List.length_map, Array.length_toList] at hle
  exact hle

namespace Machine

/-! ## Tables of producing levels -/

/-- A wire without a place has no producing level. -/
theorem join_getElem?_grow (table : Array (Option Nat)) (n i : Nat) :
    (grow table n)[i]?.join = table[i]?.join := by
  unfold grow
  rw [Array.getElem?_append]
  split
  · rfl
  · rename_i hlt
    have hnone : table[i]? = none := Array.getElem?_eq_none (by omega)
    rw [hnone, Array.getElem?_replicate]
    split <;> rfl

/-- There is a next place, so there is room for the wire. -/
theorem exists_enterLevel (level : Nat) (table : Array (Option Nat)) {w : Wire}
    (h : w.index + 1 < wordCount) :
    ∃ after, enterLevel level table w = .ok after ∧
      ∀ i, after[i]?.join = if i = w.index then some level else table[i]?.join := by
  have hset : ∀ (xs : Array (Option Nat)) (i : Nat), w.index < xs.size →
      (xs.setIfInBounds w.index (some level))[i]?.join =
        if i = w.index then some level else xs[i]?.join := by
    intro xs i hlt
    rw [Array.getElem?_setIfInBounds, if_pos hlt]
    by_cases hi : i = w.index
    · rw [if_pos hi, if_pos hi.symm]
      rfl
    · rw [if_neg hi, if_neg (Ne.symm hi)]
  unfold enterLevel
  split
  · rename_i hroom
    have hgrown : w.index < (grow table (w.index + 1)).size := by
      rw [grow, Array.size_append, Array.size_replicate]
      omega
    refine ⟨(grow table (w.index + 1)).setIfInBounds w.index (some level), ?_, fun i => ?_⟩
    · rw [plus_eq_ok h]
      exact store_eq_ok hgrown _
    · rw [hset _ _ hgrown, join_getElem?_grow]
  · rename_i hroom
    exact ⟨_, store_eq_ok (by omega) _, fun i => hset _ _ (by omega)⟩

example : enterLevel 0 #[] ⟨wordCount - 1⟩ = .error (.overflow (wordCount - 1) 1) := rfl

theorem exists_foldlM_enterLevel (level : Nat) (table : Array (Option Nat)) {ws : List Wire}
    (h : ∀ w ∈ ws, w.index + 1 < wordCount) :
    ∃ after, ws.foldlM (enterLevel level) table = .ok after ∧
      ∀ w : Wire, after[w.index]?.join = if w ∈ ws then some level else table[w.index]?.join := by
  induction ws generalizing table with
  | nil => exact ⟨table, rfl, fun w => by simp⟩
  | cons v rest ih =>
      obtain ⟨hv, hrest⟩ := List.forall_mem_cons.mp h
      obtain ⟨entered, henter, hentered⟩ := exists_enterLevel level table hv
      obtain ⟨after, hafter, hlevels⟩ := ih entered hrest
      refine ⟨after, ?_, fun w => ?_⟩
      · rw [List.foldlM_cons, henter]
        exact hafter
      · have hindex : w.index = v.index ↔ w = v := ⟨Wire.ext, congrArg Wire.index⟩
        rw [hlevels, hentered]
        by_cases hmem : w ∈ rest <;> by_cases hw : w = v <;> simp [hmem, hw, hindex]

/-! ## Machines that hold a system -/

/-- A machine holds a system if its table gives the producing levels and all else is the same. -/
structure Represents {F : Type} (m : Machine F) (s : System F) : Prop where
  system : m.system = { s with schedule := { s.schedule with wireLevels := {} } }
  wireLevel? : ∀ w, m.wireLevel? w = s.schedule.wireLevel? w

/-- An operation of a machine does not crash, its outcome is that of an operation of a system, and
the machine that is left holds the system that is left. -/
def ComesTo {F α : Type} (x : Except Crash (α × Machine F)) (y : α × System F) : Prop :=
  ∃ m, x = .ok (y.1, m) ∧ m.Represents y.2

theorem ComesTo.reply {F α : Type} {x : Except Crash (Except Fault α × Machine F)}
    {y : Except Fault α × System F} (h : ComesTo x y) (answer : α → Answer) :
    ComesTo (x >>= fun outcome => pure (reply answer outcome)) (reply answer y) := by
  obtain ⟨m, rfl, hm⟩ := h
  exact ⟨m, rfl, hm⟩

end Machine

/-- Wires and constraints can be counted in words. -/
structure System.Fits {F : Type} (s : System F) : Prop where
  wires : s.layout.wireCount < wordCount
  constraints : s.constraintCount < wordCount

/-- The terms of a constraint that is handed over to be walked over can be counted in words. -/
def Call.Fits {F : Type} : Call F → Prop
  | .appendLeveled c _ => c.wires.length < wordCount
  | _ => True

namespace Machine

variable {F : Type} {m : Machine F} {s : System F}

namespace Represents

theorem layout (h : m.Represents s) : m.system.layout = s.layout := by
  rw [h.system]

theorem hints (h : m.Represents s) : m.system.hints = s.hints := by
  rw [h.system]

theorem entries (h : m.Represents s) : m.system.entries = s.entries := by
  rw [h.system]

theorem leveledCount (h : m.Represents s) :
    m.system.schedule.leveledCount = s.schedule.leveledCount := by
  rw [h.system]
  rfl

/-! ### Levels -/

/-- A wire has the same role on the machine: a hint is found at the place that its outputs are
entered under. -/
theorem role_eq_ok (h : m.Represents s) (hfits : s.Fits) (hs : s.hints.Valid s.layout)
    (w : Wire) : m.role w = .ok (s.role w) := by
  unfold Machine.role System.role
  rw [h.layout, h.hints, h.wireLevel?, check_eq_ok hfits.wires]
  cases s.layout.check w with
  | error fault => rfl
  | ok =>
      show (isInput s.layout w >>= _) = _
      rw [isInput_eq_ok hfits.wires]
      cases s.layout.isInput w with
      | true => rfl
      | false =>
          cases s.schedule.wireLevel? w with
          | some level => rfl
          | none =>
              cases hplace : s.hints.place? w with
              | none => simp [HintRegistry.producer?, hplace]; rfl
              | some i =>
                  obtain ⟨hint, hget, -⟩ := (hs.place?_eq_some_iff w i).mp hplace
                  have hfetch : fetch s.hints.hints.toList i = .ok hint :=
                    fetch_eq_ok_iff.mpr (by rwa [Array.getElem?_toList])
                  have hproducer : s.hints.producer? w = some (i, hint) :=
                    HintRegistry.producer?_eq_some_iff.mpr ⟨hplace, hget⟩
                  simp only [hfetch, hproducer]
                  rfl

/-- There are no more levels than constraints, so the level above one is a word. -/
theorem meet_eq_ok (hfits : s.Fits) (hs : s.WellScheduled) {w : Wire} {r : Role}
    (hrole : s.role w = .ok r) (v : Sweep) : meet v w r = .ok (v.meet w r) := by
  cases r with
  | known | hinted | free => rfl
  | produced level =>
      have hlt := hs.exact.wireLevel_lt w level (System.standing_of_role hrole).2
      have hcount := hs.exact.levelCount_le
      have hstored := hs.stored
      have hword := hfits.constraints
      show (plus level 1 >>= _) = _
      rw [plus_eq_ok (by omega)]
      rfl

theorem advance_eq_ok (h : m.Represents s) (hfits : s.Fits) (hvalid : s.hints.Valid s.layout)
    (hs : s.WellScheduled) (v : Sweep) : m.advance v = .ok (s.advance v) := by
  unfold Machine.advance System.advance
  cases hpending : v.pending with
  | nil => rfl
  | cons w rest =>
      show (m.role w >>= _) = .ok ((s.role w).map _)
      rw [h.role_eq_ok hfits hvalid]
      cases hrole : s.role w with
      | error fault => rfl
      | ok r =>
          show (meet { v with pending := rest } w r >>= _) = _
          rw [meet_eq_ok hfits hs hrole]
          rfl

theorem sweepFrom_eq_ok (h : m.Represents s) (hfits : s.Fits) (hvalid : s.hints.Valid s.layout)
    (hs : s.WellScheduled) (v : Sweep) : m.sweepFrom v = .ok (s.sweepFrom v) := by
  fun_induction System.sweepFrom s v with
  | case1 v fault hturn => rw [Machine.sweepFrom_eq, h.advance_eq_ok hfits hvalid hs, hturn]
  | case2 v hturn => rw [Machine.sweepFrom_eq, h.advance_eq_ok hfits hvalid hs, hturn]
  | case3 v next hturn ih =>
      rw [Machine.sweepFrom_eq, h.advance_eq_ok hfits hvalid hs, hturn]
      exact ih

theorem exists_record (h : m.Represents s) (d : Leveled)
    (houtputs : ∀ w ∈ d.outputs, w.index + 1 < wordCount) :
    ∃ m', m.record d = .ok m' ∧
      m'.Represents { s with schedule := s.schedule.record d } := by
  obtain ⟨table, htable, hlevels⟩ :=
    exists_foldlM_enterLevel d.level m.wireLevels houtputs
  refine ⟨_, bind_eq_ok_iff.mpr ⟨table, htable, rfl⟩, ?_, ?_⟩
  · rw [h.system]
    rfl
  · intro w
    show table[w.index]?.join = (s.schedule.record d).wireLevel? w
    rw [hlevels, Schedule.wireLevel?_record, ← h.wireLevel?]
    rfl

theorem level (h : m.Represents s) (hfits : s.Fits) (hvalid : s.hints.Valid s.layout)
    (hs : s.WellScheduled) (cid : Nat) (reads : List Wire) :
    ComesTo (m.level cid reads) (s.level cid reads) := by
  unfold Machine.level System.level System.sweep
  rw [h.leveledCount, h.entries]
  split
  · exact ⟨m, rfl, h⟩
  · split
    · exact ⟨m, rfl, h⟩
    · rw [h.sweepFrom_eq_ok hfits hvalid hs]
      cases hsweep : s.sweepFrom (.start reads) with
      | error fault => exact ⟨m, rfl, h⟩
      | ok v =>
          have houtputs : ∀ w ∈ v.outputs, w.index + 1 < wordCount := by
            intro w hw
            have hdeclared :=
              (System.internal_of_mem_outputs (System.gathers_of_sweep hsweep) hvalid hw).1
            have hword := hfits.wires
            omega
          obtain ⟨m', hrecord, hm'⟩ := h.exists_record (v.leveled cid reads) houtputs
          exact ⟨m', bind_eq_ok_iff.mpr ⟨_, rfl, bind_eq_ok_iff.mpr ⟨m', hrecord, rfl⟩⟩, hm'⟩

theorem append (h : m.Represents s) (c : Constraint) (source : Option Provenance) :
    ({ m with system := (m.system.append c source).2 } : Machine F).Represents
      (s.append c source).2 where
  system := by
    rw [h.system]
    rfl
  wireLevel? := h.wireLevel?

theorem setLayout (h : m.Represents s) (l : Layout) :
    (m.setLayout l).Represents { s with layout := l } where
  system := by
    rw [Machine.setLayout, h.system]
  wireLevel? := h.wireLevel?

theorem setHints (h : m.Represents s) (hints : HintRegistry) :
    (m.setHints hints).Represents { s with hints := hints } where
  system := by
    rw [Machine.setHints, h.system]
  wireLevel? := h.wireLevel?

theorem declare (h : m.Represents s) (result : Except Fault (Wire × Layout)) :
    ComesTo (.ok (m.declare result)) (s.declare result) := by
  cases result with
  | error fault => exact ⟨m, rfl, h⟩
  | ok wl => exact ⟨m.setLayout wl.2, rfl, h.setLayout wl.2⟩

end Represents

end Machine

/-! ## Runs -/

namespace System

variable {F : Type} [Zero F] [One F] [Add F] [Neg F] [DecidableEq F] {s : System F}

/-- A system only grows, so what fits after some calls has fitted before them. -/
theorem Fits.of_run (calls : List (Call F)) (h : (s.run calls).Fits) : s.Fits where
  wires := Nat.lt_of_le_of_lt (extends_run s calls).layout.wireCount_le h.wires
  constraints := by
    have hentries := congrArg List.length (s.entries_run calls)
    rw [List.length_append, Array.length_toList, Array.length_toList] at hentries
    have hlast : (s.run calls).entries.size < wordCount := h.constraints
    show s.entries.size < wordCount
    omega

end System

namespace Machine

variable {F : Type} {m : Machine F} {s : System F}

theorem represents_empty (config : Config) :
    (empty config : Machine F).Represents (.empty config) where
  system := rfl
  wireLevel? w := (WireMap.get?_empty w).symm

namespace Represents

variable [Zero F] [One F] [Add F] [Neg F] [DecidableEq F]

theorem appendLeveled (h : m.Represents s) (hs : s.Reachable) {c : Constraint}
    {source : Option Provenance} (hterms : c.wires.length < wordCount) (hfits : s.Fits)
    (hafter : (s.appendLeveled c source).2.Fits) :
    ComesTo (m.appendLeveled c source) (s.appendLeveled c source) := by
  have hwalk : walk (.start c) = .ok c.wires := by
    rw [walk_eq_ok hterms, Cursor.drain_fst]
    rfl
  unfold Machine.appendLeveled
  rw [hwalk]
  show ComesTo (checkAll m.system.layout c.wires >>= _) _
  rw [h.layout, checkAll_eq_ok hfits.wires]
  by_cases hwires : ∀ w ∈ c.wires, w.index < s.layout.wireCount
  · -- the constraint is stored before its level is asked for, and stays stored
    have hstored : (s.append c source).2.Fits := by
      refine ⟨hfits.wires, ?_⟩
      have hentries := congrArg List.length (s.entries_appendLeveled c source)
      rw [System.storedBy?, if_pos hwires, List.length_append, Array.length_toList] at hentries
      have hlast : (s.appendLeveled c source).2.entries.size < wordCount := hafter.constraints
      rw [hentries] at hlast
      show (s.entries.push ⟨c, source⟩).size < wordCount
      rwa [Array.size_push]
    have hreachable : (s.append c source).2.Reachable := hs.run [.append c source]
    have hlevel := (h.append c source).level hstored (System.valid_of_reachable hreachable)
      (System.wellScheduled_of_reachable hreachable) s.entries.size c.wires
    rw [System.appendLeveled_of_declared source hwires, Layout.forM_check_eq_ok_iff.mpr hwires]
    rw [← h.entries] at hlevel ⊢
    exact hlevel
  · obtain ⟨w, hw⟩ := Layout.exists_firstUndeclared hwires
    rw [System.appendLeveled_of_undeclared source hw, Layout.forM_check, hw]
    exact ⟨m, rfl, h⟩

theorem intern (h : m.Represents s) (value : F) :
    (m.system.intern value).1 = (s.intern value).1 ∧
      ({ m with system := (m.system.intern value).2 } : Machine F).Represents
        (s.intern value).2 := by
  refine ⟨?_, ?_, h.wireLevel?⟩
  · rw [h.system]
    rfl
  · rw [h.system]
    rfl

/-- A call of a reachable system does not crash. -/
theorem call (h : m.Represents s) (hs : s.Reachable) {c : Call F} (hc : c.Fits)
    (hafter : (s.call c).2.Fits) : ComesTo (m.call c) (s.call c) := by
  have hfits : s.Fits := System.Fits.of_run [c] hafter
  have hvalid := System.valid_of_reachable hs
  cases c with
  | declarePublic name =>
      show ComesTo (declarePublic m.system.layout name >>= _) _
      rw [declarePublic_eq_ok, h.layout]
      exact (h.declare (s.layout.declarePublic name)).reply .wire
  | declareSecret name =>
      have hlast : ∀ w l, s.layout.declareSecret name = .ok (w, l) → l.wireCount < wordCount := by
        intro w l hok
        have hwires : (s.declare (s.layout.declareSecret name)).2.layout.wireCount < wordCount :=
          hafter.wires
        rw [hok] at hwires
        exact hwires
      show ComesTo (declareSecret m.system.layout name >>= _) _
      rw [h.layout, declareSecret_eq_ok hlast]
      exact (h.declare (s.layout.declareSecret name)).reply .wire
  | declareInternal =>
      show ComesTo (declareInternal m.system.layout >>= _) _
      rw [h.layout, declareInternal_eq_ok hfits.wires]
      exact ⟨_, rfl, h.setLayout _⟩
  | intern value =>
      obtain ⟨hid, hrep⟩ := h.intern value
      exact ⟨_, by rw [Machine.call, hid]; rfl, hrep⟩
  | term value wire =>
      obtain ⟨hid, hrep⟩ := h.intern value
      exact ⟨_, by rw [Machine.call, hid]; rfl, hrep⟩
  | register hint =>
      show ComesTo (Machine.register m.system.hints m.system.layout hint >>= _) _
      rw [h.layout, h.hints, register_eq_ok hfits.wires]
      exact ⟨_, rfl, h.setHints _⟩
  | append constraint source =>
      exact ⟨_, by rw [Machine.call, System.append, h.entries]; rfl, h.append constraint source⟩
  | appendLeveled constraint source => exact (h.appendLeveled hs hc hfits hafter).reply .leveled
  | level cid reads =>
      exact (h.level hfits hvalid (System.wellScheduled_of_reachable hs) cid reads).reply .leveled

theorem run (h : m.Represents s) (hs : s.Reachable) {calls : List (Call F)}
    (hcalls : ∀ c ∈ calls, c.Fits) (hfits : (s.run calls).Fits) :
    ComesTo (m.run calls) (s.answers calls, s.run calls) := by
  induction calls generalizing m s with
  | nil => exact ⟨m, rfl, h⟩
  | cons c rest ih =>
      obtain ⟨hc, hrest⟩ := List.forall_mem_cons.mp hcalls
      obtain ⟨after, hcall, hafter⟩ := h.call hs hc (System.Fits.of_run rest hfits)
      obtain ⟨last, hrun, hlast⟩ := ih hafter (hs.run [c]) hrest hfits
      refine ⟨last, ?_, hlast⟩
      rw [Machine.run, hcall]
      show (after.run rest >>= _) = _
      rw [hrun]
      rfl

end Represents

end Machine

/-! ## Questions that are asked of a machine -/

namespace System

variable {F : Type} (s : System F) (schedule : Schedule)

/-- Levels have no say in a report. -/
theorem reportCoverage_schedule :
    ({ s with schedule := schedule } : System F).reportCoverage = s.reportCoverage := by
  have hscan : ∀ cs t, ({ s with schedule := schedule } : System F).scan cs t = s.scan cs t := by
    intro cs
    induction cs with
    | nil => exact fun _ => rfl
    | cons c rest ih =>
        intro t
        simp only [scan, noteAll_eq, ih]
  simp only [reportCoverage, hscan]
  rfl

variable [Zero F] [One F] [Add F] [Neg F] [Mul F] [DecidableEq F] [ToString F]

/-- Levels have no say in a check of a witness. -/
theorem checkWitness_schedule (witness : Array F) :
    ({ s with schedule := schedule } : System F).checkWitness witness =
      s.checkWitness witness := by
  have hentries : ∀ es cid,
      ({ s with schedule := schedule } : System F).checkEntries witness cid es =
        s.checkEntries witness cid es := by
    intro es
    induction es with
    | nil => exact fun _ => rfl
    | cons e rest ih =>
        intro cid
        simp only [checkEntries, ih]
        rfl
  simp only [checkWitness, hentries]

end System

namespace Machine

variable {F : Type} [Zero F] [One F] [Add F] [Neg F] [Mul F] [DecidableEq F] [ToString F]

/-- No run of a machine crashes, whatever wires, hints and constraints the calls name, as long as
the wires, the constraints and the terms of each constraint can be counted in words. The machine
gives the answers of the system, holds it in the end, and answers all questions about it, of any
wire and any witness. -/
theorem never_crashes (config : Config) (calls : List (Call F)) (hcalls : ∀ c ∈ calls, c.Fits)
    (hfits : ((System.empty config).run calls).Fits) :
    let s := (System.empty config).run calls
    ∃ m, (empty config).run calls = .ok ((System.empty config).answers calls, m) ∧
      m.Represents s ∧
      reportCoverage m.system = .ok s.reportCoverage ∧
      (∀ witness, checkWitness m.system witness = .ok (s.checkWitness witness)) ∧
      (∀ w, name? m.system.layout w = s.layout.name? w) ∧
      ∀ c : Cursor, c.constraint.wires.length < wordCount →
        next c = .ok c.next ∧ remaining c = .ok c.length ∧ walk c = .ok c.rest := by
  intro s
  have hempty : (System.empty config : System F).Reachable := System.reachable_empty config
  obtain ⟨m, hrun, hm⟩ := (represents_empty config).run hempty hcalls hfits
  have hwires : m.system.layout.wireCount < wordCount := by
    rw [hm.layout]
    exact hfits.wires
  refine ⟨m, hrun, hm, ?_, fun witness => ?_, fun w => ?_, fun c hc => ?_⟩
  · have hvalid : m.system.hints.Valid m.system.layout := by
      rw [hm.hints, hm.layout]
      exact System.valid_of_reachable (hempty.run calls)
    rw [reportCoverage_eq_ok hwires hvalid, hm.system, System.reportCoverage_schedule]
  · rw [checkWitness_eq_ok hwires, hm.system, System.checkWitness_schedule]
  · rw [name?_eq, hm.layout]
  · exact ⟨next_eq_ok hc, remaining_eq_ok hc, walk_eq_ok hc⟩

/-- The greatest word. -/
def lastWord : Nat := wordCount - 1

/-- Calls that name the greatest word as a wire, as a coefficient and as a constraint, before and
after a hint is solved. -/
def extremeRun : List (Call (Residue 17)) :=
  [.declarePublic "x", .declareInternal, .declareInternal,
    .register ⟨⟨0⟩, [], [⟨2⟩, ⟨lastWord⟩]⟩, System.registerOver [1] [3, 2],
    .level lastWord [⟨lastWord⟩], .append ⟨{}, {}, ⟨[⟨⟨lastWord⟩, ⟨lastWord⟩⟩]⟩⟩ none,
    .level 0 [⟨2⟩, ⟨lastWord⟩], .level 0 [⟨2⟩], System.appendOver [1, lastWord],
    System.appendOver [2]]

theorem never_crashes_extreme :
    ∃ m, (empty {}).run extremeRun = .ok ((System.empty {}).answers extremeRun, m) ∧
      m.wireLevel? ⟨3⟩ = some 0 ∧ m.wireLevel? ⟨lastWord⟩ = none ∧
      reportCoverage m.system = .ok ⟨[], .error (.undeclaredWire ⟨lastWord⟩ 4)⟩ := by
  have hcalls : ∀ c ∈ extremeRun, c.Fits := by
    simp [extremeRun, System.appendOver, System.registerOver, Call.Fits, Constraint.wires,
      LinearExpression.wires, wordCount, UInt64.size]
  have hwires : ((System.empty {}).run extremeRun).layout.wireCount = 4 := by cbv
  have hconstraints : ((System.empty {}).run extremeRun).constraintCount = 2 := by cbv
  have hfits : ((System.empty {}).run extremeRun).Fits :=
    ⟨by rw [hwires]; decide, by rw [hconstraints]; decide⟩
  obtain ⟨m, hrun, hm, hreport, -⟩ := never_crashes {} extremeRun hcalls hfits
  refine ⟨m, hrun, (hm.wireLevel? _).trans (by cbv), (hm.wireLevel? _).trans (by cbv), ?_⟩
  exact hreport.trans (by cbv)

end Machine

end RankOne

import RankOne.Proofs.RefusedHints

/-!
# Levelings that are turned down

Constraints are leveled in the order of their ids, and only if they are stored. Besides, a leveling
is turned down if the constraint is said to read a wire that is not declared. The wires wait on a
stack, and the arguments of hints come to lie on top of them, but these are declared in every
reachable system. So a sweep fails as if it only checked the wires that wait
(`System.map_sweepFrom`), and the wire that it names is the last undeclared one of the reads, no
matter what hints are expanded on the way (`System.leveling_refused_iff`).
-/

namespace RankOne

/-- The last of some wires that is not declared is the first one from behind. -/
theorem Layout.firstUndeclared?_reverse_eq_some_iff {l : Layout} {ws : List Wire} {w : Wire} :
    l.firstUndeclared? ws.reverse = some w ↔
      ∃ before after, ws = before ++ w :: after ∧ l.wireCount ≤ w.index ∧
        ∀ u ∈ after, u.index < l.wireCount := by
  rw [firstUndeclared?_eq_some_iff]
  constructor
  · rintro ⟨after, before, hsplit, hafter, hw⟩
    refine ⟨before.reverse, after.reverse, ?_, hw, fun u hu => hafter u (List.mem_reverse.mp hu)⟩
    rw [← List.reverse_reverse ws, hsplit]
    simp
  · rintro ⟨before, after, rfl, hw, hafter⟩
    refine ⟨after.reverse, before.reverse, by simp, ?_, hw⟩
    exact fun u hu => hafter u (List.mem_reverse.mp hu)

namespace System

variable {F : Type} {s : System F} {reads : List Wire}

/-! ## Sweeps that meet an undeclared wire -/

/-- Exactly the undeclared wires have no role. -/
theorem role_eq_error_iff {w : Wire} {fault : Fault} :
    s.role w = .error fault ↔ s.layout.check w = .error fault := by
  by_cases hw : w.index < s.layout.wireCount
  · obtain ⟨r, hrole⟩ := exists_role_of_declared hw
    rw [hrole, Layout.check_eq_ok_iff.mpr hw]
    simp
  · simp [role, Layout.check, hw]

/-- A turn fails at the wire that is next on the stack. -/
theorem advance_eq_error {v : Sweep} {fault : Fault} (h : s.advance v = .error fault) :
    ∃ w rest, v.pending = w :: rest ∧ s.layout.check w = .error fault := by
  unfold advance at h
  split at h
  · cases h
  · rename_i w rest hpending
    refine ⟨w, rest, hpending, role_eq_error_iff.mp ?_⟩
    cases hrole : s.role w with
    | error fault' =>
        rw [hrole] at h
        cases h
        rfl
    | ok r =>
        rw [hrole] at h
        cases h

/-- What a declared wire puts on the stack is declared. -/
theorem forM_check_meet (hs : s.hints.Exact s.layout) {v : Sweep} {w : Wire} {r : Role}
    (hrole : s.role w = .ok r) :
    (v.meet w r).pending.forM s.layout.check = v.pending.forM s.layout.check := by
  cases r with
  | known => rfl
  | produced level => rfl
  | free => rfl
  | hinted i h =>
      rcases Sweep.meet_hinted (v := v) w i h with ⟨-, heq⟩ | ⟨-, heq⟩ <;> rw [heq]
      have harguments : s.layout.firstUndeclared? h.inputWires.reverse = none := by
        refine Layout.firstUndeclared?_eq_none_iff.mpr fun u hu => ?_
        exact hs.arguments h (Array.mem_of_getElem? (getElem?_hints_of_role hrole)) u
          (List.mem_reverse.mp hu)
      rw [Layout.forM_check, Layout.forM_check, Layout.firstUndeclared?_append, harguments]
      rfl

/-- A sweep fails as checking the wires that wait does, whatever hints it expands on the way. -/
theorem map_sweepFrom (hs : s.hints.Exact s.layout) (v : Sweep) :
    (s.sweepFrom v).map (fun _ => ()) = v.pending.forM s.layout.check := by
  fun_induction sweepFrom s v with
  | case1 v fault hadvance =>
      obtain ⟨w, rest, hpending, hcheck⟩ := advance_eq_error hadvance
      rw [hpending]
      show .error fault = (s.layout.check w >>= fun _ => rest.forM s.layout.check)
      rw [hcheck]
      rfl
  | case2 v hadvance =>
      rw [pending_eq_nil_of_advance hadvance]
      rfl
  | case3 v next hadvance ih =>
      -- the wire that is met is declared, and it leaves what is to be checked as it was
      obtain ⟨w, rest, r, hpending, hrole, rfl⟩ := exists_meet_of_advance hadvance
      have hcheck : s.layout.check w = .ok () :=
        Layout.check_eq_ok_iff.mpr (role_eq_ok_iff.mp hrole).1
      rw [ih, forM_check_meet hs hrole, hpending]
      show rest.forM s.layout.check = (s.layout.check w >>= fun _ => rest.forM s.layout.check)
      rw [hcheck]
      rfl

/-- A sweep stops at the last of its reads that is not declared. -/
theorem sweep_eq_error_iff (hs : s.hints.Exact s.layout) {fault : Fault} :
    s.sweep reads = .error fault ↔
      ∃ w, s.layout.firstUndeclared? reads.reverse = some w ∧
        fault = .undeclaredWire w s.layout.wireCount := by
  have hchecked : (s.sweep reads).map (fun _ => ()) = reads.reverse.forM s.layout.check :=
    map_sweepFrom hs (.start reads)
  have hstops : s.sweep reads = .error fault ↔
      reads.reverse.forM s.layout.check = .error fault := by
    rw [← hchecked]
    cases s.sweep reads <;> simp [Except.map]
  rw [hstops, Layout.forM_check]
  cases s.layout.firstUndeclared? reads.reverse <;> simp [eq_comm]

/-! ## Levelings -/

/-- Why a leveling is turned down. A later cause stands only if the earlier ones do not. -/
inductive LevelRefused (s : System F) (cid : Nat) (reads : List Wire) : Fault → Prop
  | outOfOrder : cid ≠ s.schedule.leveledCount →
      LevelRefused s cid reads (.levelOutOfOrder s.schedule.leveledCount cid)
  | notStored : cid = s.schedule.leveledCount → s.constraintCount ≤ cid →
      LevelRefused s cid reads (.unknownConstraint cid s.constraintCount)
  /-- The wire is not declared, and all those that are named after it are. -/
  | undeclared {before after w} : cid = s.schedule.leveledCount → cid < s.constraintCount →
      reads = before ++ w :: after → s.layout.wireCount ≤ w.index →
      (∀ u ∈ after, u.index < s.layout.wireCount) →
      LevelRefused s cid reads (.undeclaredWire w s.layout.wireCount)

/-- A leveling is turned down with every cause that stands, so there is one only. -/
theorem LevelRefused.level_eq_error (hs : s.hints.Exact s.layout) {cid : Nat} {fault : Fault}
    (h : s.LevelRefused cid reads fault) : s.level cid reads = (.error fault, s) := by
  unfold level
  cases h with
  | outOfOrder hcid => rw [if_pos hcid]
  | notStored hcid hstored => exact (if_neg (by simpa using hcid)).trans (if_pos hstored)
  | undeclared hcid hstored hsplit hw hafter =>
      have hlast := Layout.firstUndeclared?_reverse_eq_some_iff.mpr ⟨_, _, hsplit, hw, hafter⟩
      have hsweep := (sweep_eq_error_iff hs).mpr ⟨_, hlast, rfl⟩
      refine (if_neg (by simpa using hcid)).trans ((if_neg (Nat.not_le.mpr hstored)).trans ?_)
      rw [hsweep]

/-- The next constraint gets its level if it is stored and reads declared wires. -/
theorem exists_level_of_declared (hs : s.hints.Exact s.layout)
    (hstored : s.schedule.leveledCount < s.constraintCount)
    (hreads : ∀ w ∈ reads, w.index < s.layout.wireCount) :
    ∃ d t, s.level s.schedule.leveledCount reads = (.ok d, t) := by
  obtain ⟨v, hsweep⟩ := exists_sweep_of_declared hs hreads
  exact ⟨_, _, level_eq_ok_iff.mpr ⟨rfl, hstored, v, hsweep, rfl, rfl⟩⟩

/-- A leveling that is not turned down comes about. -/
theorem exists_level_or_levelRefused (hs : s.hints.Exact s.layout) (cid : Nat)
    (reads : List Wire) :
    (∃ d t, s.level cid reads = (.ok d, t)) ∨ ∃ fault, s.LevelRefused cid reads fault := by
  by_cases hcid : cid = s.schedule.leveledCount
  · by_cases hstored : cid < s.constraintCount
    · cases hlast : s.layout.firstUndeclared? reads.reverse with
      | none =>
          left
          have hreads := Layout.firstUndeclared?_eq_none_iff.mp hlast
          rw [hcid] at hstored ⊢
          exact exists_level_of_declared hs hstored fun w hw => hreads w (List.mem_reverse.mpr hw)
      | some w =>
          obtain ⟨before, after, hsplit, hw, hafter⟩ :=
            Layout.firstUndeclared?_reverse_eq_some_iff.mp hlast
          exact .inr ⟨_, .undeclared hcid hstored hsplit hw hafter⟩
    · exact .inr ⟨_, .notStored hcid (Nat.not_lt.mp hstored)⟩
  · exact .inr ⟨_, .outOfOrder hcid⟩

theorem level_eq_error_iff (hs : s.hints.Exact s.layout) {cid : Nat} {fault : Fault} :
    s.level cid reads = (.error fault, s) ↔ s.LevelRefused cid reads fault := by
  have hcause : (s.level cid reads).1 = .error fault ↔ s.LevelRefused cid reads fault := by
    refine eq_error_iff_of_causes (fun _ h => congrArg Prod.fst (h.level_eq_error hs)) ?_
    exact (exists_level_or_levelRefused hs cid reads).imp_left
      fun ⟨d, t, hok⟩ => ⟨d, congrArg Prod.fst hok⟩
  exact ⟨fun h => hcause.mp (congrArg Prod.fst h), fun h => h.level_eq_error hs⟩

theorem declared_of_level {t : System F} {cid : Nat} {d : Leveled}
    (h : s.level cid reads = (.ok d, t)) : ∀ w ∈ reads, w.index < s.layout.wireCount := by
  obtain ⟨-, -, v, hsweep, -, -⟩ := level_eq_ok_iff.mp h
  intro w hw
  obtain ⟨r, hrole⟩ := (gathers_of_sweep hsweep).exists_role (.read hw)
  exact (role_eq_ok_iff.mp hrole).1

variable [Zero F] [One F] [Add F] [Neg F] [DecidableEq F]

/-- In a reachable system a leveling is turned down exactly if it is another constraint's turn, or
the constraint is not stored, or it is said to read an undeclared wire, and the fault is that of the
first of these causes. Of the undeclared wires the last one is named. Otherwise the leveling comes
about, and one that is turned down leaves the system as it is. -/
theorem leveling_refused_iff (hs : s.Reachable) (cid : Nat) (reads : List Wire) :
    (∀ fault, s.level cid reads = (.error fault, s) ↔ s.LevelRefused cid reads fault) ∧
      ((∃ d t, s.level cid reads = (.ok d, t)) ↔
        cid = s.schedule.leveledCount ∧ cid < s.constraintCount ∧
          ∀ w ∈ reads, w.index < s.layout.wireCount) ∧
      ∀ fault, (s.call (.level cid reads)).1 = .error fault →
        (s.call (.level cid reads)).2 = s := by
  have hexact := exact_of_reachable hs
  refine ⟨fun fault => level_eq_error_iff hexact, ⟨?_, ?_⟩,
    fun fault herror => level_of_error (reply_fst_eq_error_iff.mp herror)⟩
  · rintro ⟨d, t, hok⟩
    obtain ⟨hcid, hstored, -⟩ := level_eq_ok_iff.mp hok
    exact ⟨hcid, hstored, declared_of_level hok⟩
  · rintro ⟨rfl, hstored, hreads⟩
    exact exists_level_of_declared hexact hstored hreads

/-- A hint that reads one of its outputs, and a constraint that waits for its level. -/
def misreadRun : List (Call (Residue 17)) :=
  [.declareInternal, .declareInternal, .declareInternal, registerOver [1, 2] [2, 3],
    .append {} none]

/-- Expanding the hint puts declared wires on top of the wires 9, 2 and 7, so it is wire 9 that
stops the sweep. Before the constraint is stored it does not come to a sweep. -/
theorem leveling_refused_iff_misread :
    ((empty {}).run misreadRun).level 0 [⟨7⟩, ⟨2⟩, ⟨9⟩, ⟨3⟩] =
        (.error (.undeclaredWire ⟨9⟩ 4), (empty {}).run misreadRun) ∧
      ((empty {}).run misreadRun).level 1 [⟨9⟩] =
        (.error (.levelOutOfOrder 0 1), (empty {}).run misreadRun) ∧
      ((empty {}).run (misreadRun.take 4)).level 0 [⟨9⟩] =
        (.error (.unknownConstraint 0 0), (empty {}).run (misreadRun.take 4)) ∧
      ∃ d t, ((empty {}).run misreadRun).level 0 [⟨3⟩, ⟨1⟩] = (.ok d, t) := by
  have hwaiting := leveling_refused_iff ((reachable_empty {}).run misreadRun)
  have hbefore := leveling_refused_iff ((reachable_empty {}).run (misreadRun.take 4)) 0 [⟨9⟩]
  refine ⟨((hwaiting 0 _).1 _).mpr ?_, ((hwaiting 1 _).1 _).mpr ?_, (hbefore.1 _).mpr ?_,
    (hwaiting 0 _).2.1.mpr ⟨by decide, by decide, by decide⟩⟩
  · have hsplit : [⟨7⟩, ⟨2⟩, ⟨9⟩, ⟨3⟩] = [⟨7⟩, ⟨2⟩] ++ Wire.mk 9 :: [⟨3⟩] := rfl
    exact .undeclared (by decide) (by decide) hsplit (by decide) (by decide)
  · exact .outOfOrder (by decide)
  · exact .notStored (by decide) (by decide)

end System

end RankOne

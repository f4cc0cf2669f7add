import RankOne.Proofs.Partition
import RankOne.Proofs.Registry

/-!
# Constraints that are turned down

A constraint that is to be leveled at once is turned down if it names an undeclared wire, and then
the system stays as it is. It is also turned down if an earlier constraint waits for its level, and
then it is stored nevertheless, once for each try (`System.run_retries`). There is no third reason,
since a sweep over declared wires comes to its end (`System.exists_sweep_of_declared`). So what is
turned down leaves no trace exactly if no stored constraint waits for its level
(`System.rejection_unchanged_iff`).
-/

namespace RankOne

namespace System

variable {F : Type} {s : System F} {reads : List Wire} {c : Constraint}

/-! ## Sweeps over declared wires -/

theorem exists_role_of_declared {w : Wire} (hw : w.index < s.layout.wireCount) :
    ∃ r, s.role w = .ok r := by
  unfold role
  rw [Layout.check_eq_ok_iff.mpr hw]
  cases s.layout.isInput w <;> cases s.schedule.wireLevel? w <;> cases s.hints.producer? w <;>
    exact ⟨_, rfl⟩

/-- Reads that are declared lead to declared wires only, since the arguments of hints are. -/
theorem declared_of_leadsTo (hs : s.hints.Exact s.layout)
    (hreads : ∀ w ∈ reads, w.index < s.layout.wireCount) {w : Wire} (hw : s.LeadsTo reads w) :
    w.index < s.layout.wireCount := by
  cases hw with
  | read hmem => exact hreads w hmem
  | argument _ hrole harg =>
      exact hs.arguments _ (Array.mem_of_getElem? (getElem?_hints_of_role hrole)) w harg

/-- A turn fails only at an undeclared wire. -/
theorem exists_advance_of_declared {v : Sweep}
    (hpending : ∀ w ∈ v.pending, w.index < s.layout.wireCount) :
    ∃ next, s.advance v = .ok next := by
  unfold advance
  split
  · exact ⟨none, rfl⟩
  · rename_i w rest heq
    obtain ⟨r, hrole⟩ := exists_role_of_declared (hpending w (heq ▸ List.mem_cons_self))
    rw [hrole]
    exact ⟨_, rfl⟩

theorem exists_sweepFrom_of_declared {v : Sweep} (hv : v.OnTheWay s reads)
    (hdeclared : ∀ w, s.LeadsTo reads w → w.index < s.layout.wireCount) :
    ∃ v', s.sweepFrom v = .ok v' := by
  fun_induction sweepFrom s v with
  | case1 v fault hadvance =>
      -- what waits is led to, so it is declared
      obtain ⟨next, hnext⟩ := exists_advance_of_declared fun w hw => hdeclared w (hv.pending w hw)
      rw [hadvance] at hnext
      cases hnext
  | case2 v hadvance => exact ⟨v, rfl⟩
  | case3 v next hadvance ih => exact ih (onTheWay_of_advance hv hadvance)

/-- A sweep over declared wires comes to its end, whatever hints are registered. -/
theorem exists_sweep_of_declared (hs : s.hints.Exact s.layout)
    (hreads : ∀ w ∈ reads, w.index < s.layout.wireCount) : ∃ v, s.sweep reads = .ok v :=
  exists_sweepFrom_of_declared Sweep.onTheWay_start fun _ => declared_of_leadsTo hs hreads

/-! ## Constraints with declared wires -/

/-- While an earlier constraint waits for its level, a constraint is turned down and stored. -/
theorem appendLeveled_of_waiting (source : Option Provenance)
    (hwires : ∀ w ∈ c.wires, w.index < s.layout.wireCount)
    (hwait : s.schedule.leveledCount < s.constraintCount) :
    s.appendLeveled c source =
      (.error (.levelOutOfOrder s.schedule.leveledCount s.constraintCount),
        (s.append c source).2) := by
  have hlevel : (s.append c source).2.level s.entries.size c.wires =
      (.error (.levelOutOfOrder s.schedule.leveledCount s.constraintCount),
        (s.append c source).2) :=
    if_pos (Nat.ne_of_gt hwait)
  rw [appendLeveled_of_declared source hwires, hlevel]

/-- If none waits, a constraint gets its level. -/
theorem exists_appendLeveled_of_declared (hs : s.hints.Exact s.layout)
    (source : Option Provenance) (hwires : ∀ w ∈ c.wires, w.index < s.layout.wireCount)
    (hnone : s.schedule.leveledCount = s.constraintCount) :
    ∃ d t, s.appendLeveled c source = (.ok d, t) := by
  obtain ⟨v, hv⟩ := exists_sweep_of_declared hs hwires
  exact ⟨_, _, appendLeveled_eq_ok_iff.mpr ⟨hwires, hnone.symm, v, hv, rfl, rfl⟩⟩

/-- A system with one more constraint is another system. -/
theorem append_ne (s : System F) (c : Constraint) (source : Option Provenance) :
    (s.append c source).2 ≠ s := by
  intro h
  have hsize : (s.entries.push ⟨c, source⟩).size = s.entries.size :=
    congrArg (fun t => t.entries.size) h
  simp at hsize

variable [Zero F] [One F] [Add F] [Neg F] [DecidableEq F]

/-- Trying again does not help while a constraint waits for its level: each try stores another
copy, and the schedule stays as it is. -/
theorem run_retries (source : Option Provenance)
    (hwires : ∀ w ∈ c.wires, w.index < s.layout.wireCount)
    (hwait : s.schedule.leveledCount < s.constraintCount) (n : Nat) :
    s.run (List.replicate n (.appendLeveled c source)) =
      { s with entries := s.entries ++ Array.replicate n ⟨c, source⟩ } := by
  induction n generalizing s with
  | zero => simp [run]
  | succ n ih =>
      have hcall : (s.call (.appendLeveled c source)).2 = (s.append c source).2 :=
        congrArg Prod.snd (appendLeveled_of_waiting source hwires hwait)
      have hlater : (s.append c source).2.schedule.leveledCount <
          (s.append c source).2.constraintCount := by
        show s.schedule.leveledCount < (s.entries.push _).size
        rw [Array.size_push]
        exact Nat.lt_succ_of_lt hwait
      have hentries : s.entries.push ⟨c, source⟩ ++ Array.replicate n ⟨c, source⟩ =
          s.entries ++ Array.replicate (n + 1) ⟨c, source⟩ := by
        rw [Array.replicate_succ', Array.push_eq_append, Array.append_assoc]
      rw [List.replicate_succ, run, hcall, ih (s := (s.append c source).2) hwires hlater, ← hentries]
      rfl

/-- Constraints that are turned down leave the system as it is, all of them exactly if no stored
constraint waits for its level. An undeclared wire is always found out before anything is stored,
the first one is named, and nothing else is wrong with a constraint. But if an earlier one waits, a
constraint with declared wires is turned down only after it was stored. -/
theorem rejection_unchanged_iff (hs : s.Reachable) :
    ((∀ c source fault, (s.appendLeveled c source).1 = .error fault →
        (s.appendLeveled c source).2 = s) ↔ s.schedule.leveledCount = s.constraintCount) ∧
      ∀ c source,
        (∀ w, s.layout.firstUndeclared? c.wires = some w →
          s.appendLeveled c source = (.error (.undeclaredWire w s.layout.wireCount), s)) ∧
        (s.layout.firstUndeclared? c.wires = none →
          (s.schedule.leveledCount < s.constraintCount ∧
            s.appendLeveled c source =
              (.error (.levelOutOfOrder s.schedule.leveledCount s.constraintCount),
                (s.append c source).2)) ∨
          (s.schedule.leveledCount = s.constraintCount ∧
            ∃ d t, s.appendLeveled c source = (.ok d, t))) := by
  have hexact := exact_of_reachable hs
  have hstored : s.schedule.leveledCount ≤ s.constraintCount :=
    (wellScheduled_of_reachable hs).stored
  refine ⟨⟨?_, ?_⟩, fun c source => ⟨fun w => appendLeveled_of_undeclared source, ?_⟩⟩
  · intro hunchanged
    by_contra hne
    -- a constraint without any wire would be stored if one waited
    have happend := appendLeveled_of_waiting (s := s) (c := {}) none (fun w hw => nomatch hw)
      (by omega)
    have hsame := hunchanged {} none _ (congrArg Prod.fst happend)
    rw [happend] at hsame
    exact append_ne s {} none hsame
  · intro hnone c source fault herror
    cases hfirst : s.layout.firstUndeclared? c.wires with
    | some w => rw [appendLeveled_of_undeclared source hfirst]
    | none =>
        have hwires := Layout.firstUndeclared?_eq_none_iff.mp hfirst
        obtain ⟨d, t, hok⟩ := exists_appendLeveled_of_declared hexact source hwires hnone
        rw [hok] at herror
        cases herror
  · intro hfirst
    have hwires := Layout.firstUndeclared?_eq_none_iff.mp hfirst
    rcases Nat.lt_or_eq_of_le hstored with hwait | hnone
    · exact .inl ⟨hwait, appendLeveled_of_waiting source hwires hwait⟩
    · exact .inr ⟨hnone, exists_appendLeveled_of_declared hexact source hwires hnone⟩

/-- The first constraint reads the output of a hint that reads it as well, and waits for its
level. -/
def waitingRun : List (Call (Residue 17)) :=
  [.declarePublic "x", .declareInternal, registerOver [1, 2] [2],
    .append { left := ⟨[⟨.one, ⟨2⟩⟩]⟩ } none]

/-- Once the first constraint has its level, nothing that is turned down is stored any more. -/
theorem rejection_unchanged_iff_waiting :
    (¬ ∀ c source fault, (((empty {}).run waitingRun).appendLeveled c source).1 = .error fault →
        (((empty {}).run waitingRun).appendLeveled c source).2 = (empty {}).run waitingRun) ∧
      ∀ c source fault,
        (((empty {}).run (waitingRun ++ [.level 0 [⟨2⟩]])).appendLeveled c source).1 = .error fault →
          (((empty {}).run (waitingRun ++ [.level 0 [⟨2⟩]])).appendLeveled c source).2 =
            (empty {}).run (waitingRun ++ [.level 0 [⟨2⟩]]) := by
  obtain ⟨hwaiting, -⟩ := rejection_unchanged_iff ((reachable_empty {}).run waitingRun)
  obtain ⟨hleveled, -⟩ :=
    rejection_unchanged_iff ((reachable_empty {}).run (waitingRun ++ [.level 0 [⟨2⟩]]))
  exact ⟨mt hwaiting.mp (by decide), hleveled.mpr (by cbv)⟩

/-- The second constraint is turned down and stored, along with what is said about it. -/
theorem rejected_constraint_stored :
    (((empty {}).run waitingRun).appendLeveled { left := ⟨[⟨.one, ⟨1⟩⟩]⟩ }
        (some { message := "late" })).1 = .error (.levelOutOfOrder 0 1) ∧
      ((empty {}).run waitingRun).constraintCount = 1 ∧
      (((empty {}).run waitingRun).appendLeveled { left := ⟨[⟨.one, ⟨1⟩⟩]⟩ }
        (some { message := "late" })).2.constraintCount = 2 ∧
      (((empty {}).run waitingRun).appendLeveled { left := ⟨[⟨.one, ⟨1⟩⟩]⟩ }
        (some { message := "late" })).2.source? 1 = some { message := "late" } := by
  refine ⟨?_, ?_, ?_, ?_⟩ <;> rfl

end System

end RankOne

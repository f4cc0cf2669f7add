import RankOne.Proofs.Rejection
import RankOne.Proofs.Storage

/-!
# Constraints that are leveled at once

A front-end may store constraints only together with their levels (`AppendsLeveled`). Then no stored
constraint ever waits for a level, all that is stored is declared and produced
(`System.Settled`), and every call that is turned down leaves the system as it is
(`System.call_of_error`). So a constraint with declared wires is always accepted, and the calls that
were turned down may be left out of a run (`System.leveled_appends_succeed`).
-/

namespace RankOne

/-- Calls that store constraints only together with their levels. -/
def AppendsLeveled {F : Type} (calls : List (Call F)) : Prop :=
  ∀ c source, .append c source ∉ calls

theorem appendsLeveled_cons {F : Type} {c : Call F} {rest : List (Call F)} :
    AppendsLeveled (c :: rest) ↔
      (∀ constraint source, c ≠ .append constraint source) ∧ AppendsLeveled rest := by
  simp only [AppendsLeveled, List.mem_cons, not_or, forall_and, ne_eq, eq_comm]

theorem LinearExpression.mem_wires_of_mem_nonzeroWires {e : LinearExpression} {w : Wire}
    (h : w ∈ e.nonzeroWires) : w ∈ e.wires := by
  obtain ⟨t, ht, rfl⟩ := List.mem_map.mp h
  exact List.mem_map_of_mem (List.mem_filter.mp ht).1

/-- What a constraint constrains, it reads. -/
theorem Constraint.mem_wires_of_mem_nonzeroWires {c : Constraint} {w : Wire}
    (h : w ∈ c.nonzeroWires) : w ∈ c.wires := by
  simp only [nonzeroWires, wires, List.mem_append] at h ⊢
  exact h.imp (Or.imp LinearExpression.mem_wires_of_mem_nonzeroWires
    LinearExpression.mem_wires_of_mem_nonzeroWires) LinearExpression.mem_wires_of_mem_nonzeroWires

namespace System

variable {F : Type} {s t : System F}

/-! ## Settled systems -/

/-- Every stored constraint has a level. Its wires are declared, and those that are no inputs are
produced. -/
structure Settled (s : System F) : Prop where
  leveled : s.schedule.leveledCount = s.constraintCount
  declared : ∀ c ∈ s.constraints, ∀ w ∈ c.wires, w.index < s.layout.wireCount
  produced : ∀ c ∈ s.constraints, ∀ w ∈ c.wires, s.layout.isInput w = false →
    ∃ level, s.schedule.wireLevel? w = some level

theorem settled_empty (config : Config) : (empty config : System F).Settled where
  leveled := rfl
  declared _ hc := nomatch hc
  produced _ hc := nomatch hc

theorem Settled.declared_nonzeroWires (hs : s.Settled) :
    ∀ c ∈ s.constraints, ∀ w ∈ c.nonzeroWires, w.index < s.layout.wireCount :=
  fun c hc w hw => hs.declared c hc w (Constraint.mem_wires_of_mem_nonzeroWires hw)

/-- A system stays settled while it gets further wires, coefficients and hints. -/
theorem Settled.mono (hs : s.Settled) (hlayout : s.layout.Extends t.layout)
    (hentries : t.entries = s.entries) (hschedule : t.schedule = s.schedule) : t.Settled := by
  have hconstraints : t.constraints = s.constraints := by
    rw [constraints, constraints, hentries]
  refine ⟨?_, ?_, ?_⟩
  · rw [hschedule, constraintCount, hentries]
    exact hs.leveled
  · intro c hc w hw
    rw [hconstraints] at hc
    exact Nat.lt_of_lt_of_le (hs.declared c hc w hw) hlayout.wireCount_le
  · intro c hc w hw hinternal
    rw [hconstraints] at hc
    rw [hlayout.isInput_eq w (hs.declared c hc w hw)] at hinternal
    rw [hschedule]
    exact hs.produced c hc w hw hinternal

/-- A settled system has no constraint that could be leveled. -/
theorem Settled.level_eq_error (hs : s.Settled) (cid : Nat) (reads : List Wire) :
    s.level cid reads = (.error (if cid = s.constraintCount
      then .unknownConstraint cid s.constraintCount
      else .levelOutOfOrder s.constraintCount cid), s) := by
  have hsize : s.schedule.leveledCount = s.entries.size := hs.leveled
  unfold level constraintCount
  rw [hsize]
  by_cases hcid : cid = s.entries.size
  · simp [hcid]
  · simp [hcid]

/-- A constraint that gets its level at once leaves a settled system settled. -/
theorem Settled.appendLeveled (hs : s.Settled) (hvalid : s.hints.Valid s.layout) {c : Constraint}
    {source : Option Provenance} {d : Leveled} (h : s.appendLeveled c source = (.ok d, t)) :
    t.Settled := by
  obtain ⟨hwires, -, v, hsweep, hd, rfl⟩ := appendLeveled_eq_ok_iff.mp h
  have hv := gathers_of_sweep hsweep
  have hconstraints : ∀ {e}, e ∈ (s.entries.push ⟨c, source⟩).toList.map Entry.constraint →
      e ∈ s.constraints ∨ e = c := by
    intro e he
    simpa [constraints] using he
  refine ⟨?_, ?_, ?_⟩
  · show (s.schedule.record d).leveledCount = (s.entries.push ⟨c, source⟩).size
    rw [Schedule.leveledCount_record, Array.size_push, hs.leveled]
    rfl
  · intro e he w hw
    rcases hconstraints he with hold | rfl
    · exact hs.declared e hold w hw
    · exact hwires w hw
  · intro e he w hw hinternal
    show ∃ level, (s.schedule.record d).wireLevel? w = some level
    rw [Schedule.wireLevel?_record]
    by_cases hout : w ∈ d.outputs
    · exact ⟨d.level, if_pos hout⟩
    · rw [if_neg hout]
      rcases hconstraints he with hold | rfl
      · exact hs.produced e hold w hw hinternal
      · -- what the constraint reads and does not produce was produced before
        rw [hd] at hout
        rcases produced_or_mem_outputs hv hvalid (.read hw) hinternal with ⟨level, hlevel, -⟩ | hmem
        · exact ⟨level, hlevel⟩
        · exact absurd hmem hout

variable [Zero F] [One F] [Add F] [Neg F] [DecidableEq F]

/-! ## One call -/

/-- A call that stores no constraint does not change the schedule of a settled system. -/
theorem Settled.schedule_call (hs : s.Settled) {c : Call F} (hc : s.storedBy? c = none) :
    (s.call c).2.schedule = s.schedule := by
  have hentries := s.entries_call c
  have heffect := s.effect_of_call c
  rw [hc, Option.toList_none, List.append_nil, Array.toList_inj] at hentries
  generalize (s.decision c).toList = ds at heffect
  generalize (s.call c).2 = t at hentries heffect
  cases heffect with
  | nothing | declared | interned | registered | stored => rfl
  | leveled hstored hnext hsweep =>
      -- all that is stored has a level, so there is no next constraint
      have hleveled : s.schedule.leveledCount = s.entries.size := hs.leveled
      rw [← hentries] at hleveled
      exact absurd hleveled (Nat.ne_of_lt hnext)

/-- A settled system stays settled with every call that does not store a constraint without its
level. -/
theorem Settled.call (hs : s.Settled) (hexact : s.hints.Exact s.layout) {c : Call F}
    (hc : ∀ constraint source, c ≠ .append constraint source) : (s.call c).2.Settled := by
  cases hstored : s.storedBy? c with
  | none =>
      have hentries := s.entries_call c
      rw [hstored, Option.toList_none, List.append_nil, Array.toList_inj] at hentries
      exact hs.mono (s.effect_of_call c).extends.layout hentries (hs.schedule_call hstored)
  | some e =>
      cases c with
      | append constraint source => exact absurd rfl (hc constraint source)
      | appendLeveled constraint source =>
          have hwires : ∀ w ∈ constraint.wires, w.index < s.layout.wireCount := by
            by_contra hundeclared
            rw [storedBy?, if_neg hundeclared] at hstored
            cases hstored
          obtain ⟨d, t, ht⟩ := exists_appendLeveled_of_declared hexact source hwires hs.leveled
          show (s.appendLeveled constraint source).2.Settled
          rw [ht]
          exact hs.appendLeveled hexact.toValid ht
      | declarePublic | declareSecret | declareInternal | intern | term | register | level =>
          cases hstored

/-- In a settled system every call that is turned down changes nothing. -/
theorem call_of_error (hs : s.Settled) (hexact : s.hints.Exact s.layout) {c : Call F}
    {fault : Fault} (h : (s.call c).1 = .error fault) : (s.call c).2 = s := by
  cases c with
  | declarePublic | declareSecret => exact declare_of_error (reply_fst_eq_error_iff.mp h)
  | register => exact register_of_error (reply_fst_eq_error_iff.mp h)
  | level => exact level_of_error (reply_fst_eq_error_iff.mp h)
  | declareInternal | intern | term | append => cases h
  | appendLeveled constraint source =>
      show (s.appendLeveled constraint source).2 = s
      cases hfirst : s.layout.firstUndeclared? constraint.wires with
      | some w => rw [appendLeveled_of_undeclared source hfirst]
      | none =>
          have hwires := Layout.firstUndeclared?_eq_none_iff.mp hfirst
          obtain ⟨d, t, hok⟩ := exists_appendLeveled_of_declared hexact source hwires hs.leveled
          rw [System.call, hok] at h
          cases h

/-! ## Runs -/

theorem settled_run (hs : s.Settled) (hexact : s.hints.Exact s.layout) {calls : List (Call F)}
    (h : AppendsLeveled calls) : (s.run calls).Settled := by
  induction calls generalizing s with
  | nil => exact hs
  | cons c rest ih =>
      obtain ⟨hc, hrest⟩ := appendsLeveled_cons.mp h
      exact ih (hs.call hexact hc) ((s.effect_of_call c).exact hexact) hrest

/-- The calls of a run that are not turned down. -/
def accepted (s : System F) : List (Call F) → List (Call F)
  | [] => []
  | c :: rest =>
    if (s.call c).1.isOk then c :: (s.call c).2.accepted rest else (s.call c).2.accepted rest

/-- The calls that are turned down may be left out. -/
theorem run_accepted (hs : s.Settled) (hexact : s.hints.Exact s.layout) {calls : List (Call F)}
    (h : AppendsLeveled calls) : s.run (s.accepted calls) = s.run calls := by
  induction calls generalizing s with
  | nil => rfl
  | cons c rest ih =>
      obtain ⟨hc, hrest⟩ := appendsLeveled_cons.mp h
      have hlater := ih (hs.call hexact hc) ((s.effect_of_call c).exact hexact) hrest
      cases hanswer : (s.call c).1 with
      | ok answer =>
          rw [accepted, hanswer]
          exact hlater
      | error fault =>
          rw [call_of_error hs hexact hanswer] at hlater
          rw [accepted, hanswer, run, call_of_error hs hexact hanswer]
          exact hlater

/-- A front-end that stores every constraint together with its level is never stuck, whatever else
it tries. After any of its calls all that is stored is leveled, declared and produced. A constraint
is accepted exactly if its wires are declared, and otherwise the first of them that is not is named.
A level that is asked for apart is always refused, and the calls that were turned down may be left
out. -/
theorem leveled_appends_succeed (config : Config) (calls : List (Call F))
    (h : AppendsLeveled calls) :
    let s := (empty config).run calls
    (∀ cid < s.constraintCount, ∃ level, s.schedule.level? cid = some level) ∧
    (∀ c ∈ s.constraints, ∀ w ∈ c.wires, w.index < s.layout.wireCount ∧
      (s.layout.isInput w = false → ∃ level, s.schedule.wireLevel? w = some level)) ∧
    (∀ c source, (∃ d, (s.appendLeveled c source).1 = .ok d) ↔
      ∀ w ∈ c.wires, w.index < s.layout.wireCount) ∧
    (∀ c source w, s.layout.firstUndeclared? c.wires = some w →
      s.appendLeveled c source = (.error (.undeclaredWire w s.layout.wireCount), s)) ∧
    (∀ cid reads, s.level cid reads = (.error (if cid = s.constraintCount
      then .unknownConstraint cid s.constraintCount
      else .levelOutOfOrder s.constraintCount cid), s)) ∧
    (empty config).run ((empty config).accepted calls) = s := by
  intro s
  have hempty : (empty config : System F).hints.Exact (empty config : System F).layout :=
    HintRegistry.exact_empty _
  have hs : s.Settled := settled_run (settled_empty config) hempty h
  have hexact : s.hints.Exact s.layout := exact_run hempty calls
  refine ⟨?_, fun c hc w hw => ⟨hs.declared c hc w hw, hs.produced c hc w hw⟩, ?_,
    fun c source w => appendLeveled_of_undeclared source,
    hs.level_eq_error, run_accepted (settled_empty config) hempty h⟩
  · intro cid hcid
    rw [← hs.leveled] at hcid
    exact Option.isSome_iff_exists.mp (Schedule.isSome_level?_iff.mpr hcid)
  · intro c source
    constructor
    · rintro ⟨d, hd⟩
      exact (appendLeveled_eq_ok_iff.mp (Prod.ext hd rfl)).1
    · intro hwires
      obtain ⟨d, t, hok⟩ := exists_appendLeveled_of_declared hexact source hwires hs.leveled
      exact ⟨d, congrArg Prod.fst hok⟩

/-- Calls of all kinds that are turned down, before and after a constraint that is not. -/
def strayRun : List (Call (Residue 17)) :=
  [.declareInternal, .level 0 [⟨1⟩], appendOver [1, 7], .declarePublic "late",
    registerOver [] [1, 1], appendOver [1], .level 1 [⟨9⟩], .level 0 []]

/-- Two of these calls do all there is to see, and wire 1 is produced by the constraint that was
accepted. -/
theorem leveled_appends_succeed_stray :
    (empty {}).run [.declareInternal, appendOver [1]] = (empty {}).run strayRun ∧
      (∃ level, ((empty {}).run strayRun).schedule.wireLevel? ⟨1⟩ = some level) ∧
      (∃ d, (((empty {}).run strayRun).appendLeveled ⟨{}, ⟨[⟨.zero, ⟨1⟩⟩]⟩, {}⟩ none).1 = .ok d) ∧
      (((empty {}).run strayRun).appendLeveled
        ⟨{}, ⟨[⟨.one, ⟨1⟩⟩, ⟨.zero, ⟨8⟩⟩]⟩, ⟨[⟨.one, ⟨2⟩⟩]⟩⟩ none).1 =
          .error (.undeclaredWire ⟨8⟩ 2) := by
  have hleveled : AppendsLeveled strayRun := by
    simp [AppendsLeveled, strayRun, appendOver, registerOver]
  obtain ⟨-, hproduced, haccepted, hrefused, -, hrun⟩ :=
    leveled_appends_succeed {} strayRun hleveled
  have hkept : (empty {}).accepted strayRun = [.declareInternal, appendOver [1]] := by cbv
  have hcount : ((empty {}).run strayRun).layout.wireCount = 2 := by cbv
  have hstored : ((empty {}).run strayRun).constraints = [⟨⟨[⟨.one, ⟨1⟩⟩]⟩, {}, {}⟩] := by cbv
  rw [hkept] at hrun
  rw [hcount] at haccepted hrefused
  refine ⟨hrun, ?_, (haccepted _ _).mpr (by decide), ?_⟩
  · exact (hproduced _ (hstored ▸ List.mem_singleton_self _) ⟨1⟩ (by decide)).2 (by cbv)
  · exact congrArg Prod.fst (hrefused _ _ ⟨8⟩ (by cbv))

end System

end RankOne

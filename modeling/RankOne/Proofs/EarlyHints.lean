import RankOne.Proofs.RefusedHints

/-!
# Hints that are registered early

A hint takes part in a leveling only through those of its outputs that have no producing level yet.
If the reads lead to none of these (`System.Spares`), then the hint may be registered before the
leveling or after it (`System.register_level_commute`): registering it changes no role that the
sweep asks for, and the leveling changes nothing that decides whether the hint is accepted. The same
holds of a list of calls all of whose levelings spare the hint (`System.run_register_commute`).
-/

namespace RankOne

/-- A hint that is accepted still is when more wires have been declared. -/
theorem HintRegistry.check_mono {r : HintRegistry} {l l' : Layout} {h : Hint} (hr : r.Valid l)
    (hl : l.Extends l') (hcheck : r.check l h = .ok ()) : r.check l' h = .ok () := by
  obtain ⟨harguments, hadmits⟩ := (accepted_iff hr).mp hcheck
  refine (accepted_iff (hr.mono hl)).mpr ⟨?_, ?_, ?_, hadmits.fresh, hadmits.nodup⟩
  · exact fun w hw => Nat.lt_of_lt_of_le (harguments w hw) hl.wireCount_le
  · exact fun w hw => Nat.lt_of_lt_of_le (hadmits.declared w hw) hl.wireCount_le
  · intro w hw
    rw [hl.isInput_eq w (hadmits.declared w hw)]
    exact hadmits.internal w hw

namespace System

variable {F : Type} {s sh sl : System F} {h : Hint} {reads : List Wire}

/-! ## Levelings -/

/-- The reads lead to no output of a hint that is without a producing level. -/
def Spares (s : System F) (h : Hint) (reads : List Wire) : Prop :=
  ∀ w ∈ h.outputs, s.schedule.wireLevel? w = none → ¬ s.LeadsTo reads w

/-- The system with a hint that has been entered unchecked. -/
def withHint (s : System F) (h : Hint) : System F := { s with hints := s.hints.push h }

/-- A further hint only changes the roles of its outputs without a producing level. -/
theorem role_withHint (hs : s.hints.Valid s.layout) {w : Wire}
    (hw : w ∈ h.outputs → s.schedule.wireLevel? w ≠ none) : (s.withHint h).role w = s.role w := by
  unfold role withHint
  by_cases hout : w ∈ h.outputs
  · obtain ⟨level, hlevel⟩ := Option.ne_none_iff_exists'.mp (hw hout)
    simp only [hlevel]
  · simp only [HintRegistry.producer?_push_of_notMem hs hout]

theorem sweep_withHint (hs : s.hints.Valid s.layout) (hspares : s.Spares h reads) :
    (s.withHint h).sweep reads = s.sweep reads :=
  sweep_congr fun w hw => role_withHint hs fun hout hnone => hspares w hout hnone hw

/-- A further hint that is spared makes no difference to a leveling. The stored constraints are left
open, since a constraint may be stored right before its leveling. -/
theorem level_withHint (hs : s.hints.Valid s.layout) (hspares : s.Spares h reads) (cid : Nat)
    (entries : Array Entry) :
    let outcome := ({ s with entries := entries } : System F).level cid reads
    ({ s.withHint h with entries := entries } : System F).level cid reads =
      (outcome.1, outcome.2.withHint h) := by
  have hsweep : ({ s.withHint h with entries := entries } : System F).sweep reads =
      ({ s with entries := entries } : System F).sweep reads := by
    rw [sweep_entries (s.withHint h), sweep_entries s, sweep_withHint hs hspares]
  intro outcome
  unfold outcome level
  rw [hsweep]
  show ite (cid ≠ s.schedule.leveledCount) _ (ite (entries.size ≤ cid) _ _) = _
  split
  · rfl
  · split
    · rfl
    · cases ({ s with entries := entries } : System F).sweep reads <;> rfl

/-! ## Calls -/

/-- Calls that register no hint, and whose leveling, if any, spares a hint. -/
def SparesCall (s : System F) (h : Hint) : Call F → Prop
  | .register _ => False
  | .appendLeveled c _ => s.Spares h c.wires
  | .level _ reads => s.Spares h reads
  | _ => True

theorem declare_withHint (s : System F) (h : Hint) (result : Except Fault (Wire × Layout)) :
    (s.withHint h).declare result = ((s.declare result).1, (s.declare result).2.withHint h) := by
  cases result <;> rfl

/-- A constraint is stored and leveled as before if its leveling spares the further hint. -/
theorem appendLeveled_withHint (hs : s.hints.Valid s.layout) {c : Constraint}
    (hspares : s.Spares h c.wires) (source : Option Provenance) :
    (s.withHint h).appendLeveled c source =
      ((s.appendLeveled c source).1, (s.appendLeveled c source).2.withHint h) := by
  by_cases hwires : ∀ w ∈ c.wires, w.index < s.layout.wireCount
  · have hlevel : ((s.withHint h).append c source).2.level (s.withHint h).entries.size c.wires =
        (((s.append c source).2.level s.entries.size c.wires).1,
          ((s.append c source).2.level s.entries.size c.wires).2.withHint h) :=
      level_withHint hs hspares _ _
    rw [appendLeveled_of_declared source hwires,
      appendLeveled_of_declared (s := s.withHint h) source hwires, hlevel]
  · obtain ⟨w, hw⟩ := Layout.exists_firstUndeclared hwires
    rw [appendLeveled_of_undeclared source hw,
      appendLeveled_of_undeclared (s := s.withHint h) source hw]
    rfl

theorem Effect.hints_eq {t : System F} {c : Call F} {ds : List Leveled} (heffect : s.Effect c ds t)
    (hspares : s.SparesCall h c) : t.hints = s.hints := by
  cases heffect with
  | registered hc hcheck =>
      rw [hc] at hspares
      exact hspares.elim
  | _ => rfl

variable [Zero F] [One F] [Add F] [Neg F] [DecidableEq F]

/-- A further hint makes no difference to a call that spares it. -/
theorem call_withHint (hs : s.hints.Valid s.layout) {c : Call F} (hspares : s.SparesCall h c) :
    (s.withHint h).call c = ((s.call c).1, (s.call c).2.withHint h) := by
  cases c with
  | register hint => exact hspares.elim
  | declarePublic name =>
      exact congrArg (reply .wire) (s.declare_withHint h (s.layout.declarePublic name))
  | declareSecret name =>
      exact congrArg (reply .wire) (s.declare_withHint h (s.layout.declareSecret name))
  | declareInternal => rfl
  | intern value => rfl
  | term value wire => rfl
  | append c source => rfl
  | appendLeveled c source =>
      exact congrArg (reply .leveled) (appendLeveled_withHint hs hspares source)
  | level cid reads =>
      exact congrArg (reply .leveled) (level_withHint hs hspares cid s.entries)

/-- A further hint makes no difference to calls all of which spare it. -/
theorem run_withHint (hs : s.hints.Valid s.layout) {calls : List (Call F)}
    (hspares : ∀ before c after, calls = before ++ c :: after → (s.run before).SparesCall h c) :
    (s.withHint h).answers calls = s.answers calls ∧
      (s.withHint h).run calls = (s.run calls).withHint h ∧ (s.run calls).hints = s.hints := by
  induction calls generalizing s with
  | nil => exact ⟨rfl, rfl, rfl⟩
  | cons c rest ih =>
      have heffect := s.effect_of_call c
      have hc := hspares [] c rest rfl
      obtain ⟨hanswers, hrun, hhints⟩ := ih (heffect.valid hs) fun before c' after hrest =>
        hspares (c :: before) c' after (by rw [hrest, List.cons_append])
      rw [answers, answers, run, run, call_withHint hs hc, hanswers, hrun, hhints]
      exact ⟨rfl, rfl, heffect.hints_eq hc⟩

/-- A hint that is accepted may be registered before some calls or after them if all of them spare
it: the calls are answered alike, the hint takes the same place, and the same system comes out. -/
theorem run_register_commute (hs : s.Reachable) {i : Nat} (hregister : s.register h = (.ok i, sh))
    {calls : List (Call F)}
    (hspares : ∀ before c after, calls = before ++ c :: after → (s.run before).SparesCall h c) :
    sh.answers calls = s.answers calls ∧ (s.run calls).register h = (.ok i, sh.run calls) := by
  obtain ⟨hcheck, rfl, rfl⟩ := register_eq_ok_iff.mp hregister
  have hvalid := valid_of_reachable hs
  obtain ⟨hanswers, hrun, hhints⟩ := run_withHint hvalid hspares
  refine ⟨hanswers, register_eq_ok_iff.mpr ⟨?_, by rw [hhints], hrun⟩⟩
  rw [hhints]
  exact HintRegistry.check_mono hvalid (extends_run s calls).layout hcheck

/-- A hint that is accepted may be registered before a leveling or after it if the reads lead to no
output of the hint that is without a producing level: both are accepted in both orders, the hint
takes the same place, the same is decided on the constraint, and the same system comes out. -/
theorem register_level_commute (hs : s.Reachable) {i : Nat}
    (hregister : s.register h = (.ok i, sh)) {cid : Nat} {d : Leveled}
    (hlevel : s.level cid reads = (.ok d, sl)) (hspares : s.Spares h reads) :
    ∃ t, sh.level cid reads = (.ok d, t) ∧ sl.register h = (.ok i, t) ∧
      t = { sl with hints := sh.hints } := by
  obtain ⟨hcheck, rfl, rfl⟩ := register_eq_ok_iff.mp hregister
  have hearly : (s.withHint h).level cid reads = (.ok d, sl.withHint h) := by
    have hsame := level_withHint (valid_of_reachable hs) hspares cid s.entries
    exact hsame.trans (congrArg (fun outcome => (outcome.1, outcome.2.withHint h)) hlevel)
  obtain ⟨-, -, v, -, -, rfl⟩ := level_eq_ok_iff.mp hlevel
  exact ⟨_, hearly, register_eq_ok_iff.mpr ⟨hcheck, rfl, rfl⟩, rfl⟩

/-- Wire 5 is produced at level 0, and a hint that reads it computes wire 4. A constraint waits for
its level. -/
def solvedRun : List (Call (Residue 17)) :=
  [.declarePublic "x", .declareInternal, .declareInternal, .declareInternal, .declareInternal,
    .declareInternal, registerOver [5] [4], appendOver [5], .append {} none]

/-- The constraint reads an output of the further hint, and so does the hint that is expanded. The
other output, wire 6, is not reached. -/
theorem register_level_commute_solved :
    ∃ i sh d sl t, ((empty {}).run solvedRun).register (hintOver [4] [5, 6]) = (.ok i, sh) ∧
      ((empty {}).run solvedRun).level 1 [⟨4⟩, ⟨5⟩] = (.ok d, sl) ∧ d.level = 1 ∧
      sh.level 1 [⟨4⟩, ⟨5⟩] = (.ok d, t) ∧ sl.register (hintOver [4] [5, 6]) = (.ok i, t) := by
  have hreachable : ((empty {}).run solvedRun).Reachable := (reachable_empty {}).run solvedRun
  have hcheck : ((empty {}).run solvedRun).hints.check ((empty {}).run solvedRun).layout
      (hintOver [4] [5, 6]) = .ok () := by cbv
  have hsweep : ((empty {}).run solvedRun).sweep [⟨4⟩, ⟨5⟩] = .ok ⟨[], 1, [⟨4⟩], [0]⟩ := by cbv
  have hregister := register_eq_ok_iff.mpr ⟨hcheck, rfl, rfl⟩
  have hlevel : ((empty {}).run solvedRun).level 1 [⟨4⟩, ⟨5⟩] = (.ok _, _) :=
    level_eq_ok_iff.mpr ⟨by cbv, by cbv, _, hsweep, rfl, rfl⟩
  have hspares : ((empty {}).run solvedRun).Spares (hintOver [4] [5, 6]) [⟨4⟩, ⟨5⟩] := by
    intro w hw hnone hleads
    have hproduced : ((empty {}).run solvedRun).schedule.wireLevel? ⟨5⟩ = some 0 := by cbv
    have hfree : ((empty {}).run solvedRun).role ⟨6⟩ = .ok .free := by cbv
    rcases List.mem_pair.mp hw with rfl | rfl
    · rw [hproduced] at hnone
      cases hnone
    · -- a free wire that is reached is gathered, but wire 4 is the only one that is
      have hmet := (gathers_of_sweep hsweep).met ⟨6⟩ hleads
      rw [Sweep.Met, hfree] at hmet
      revert hmet
      decide
  obtain ⟨t, hearly, hlate, -⟩ := register_level_commute hreachable hregister hlevel hspares
  exact ⟨_, _, _, _, t, hregister, hlevel, rfl, hearly, hlate⟩

end System

end RankOne

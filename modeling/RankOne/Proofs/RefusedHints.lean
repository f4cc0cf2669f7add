import RankOne.Proofs.LeveledAppends

/-!
# Hints that are turned down

A hint is accepted exactly if its arguments are declared and its outputs are admitted: declared
internal wires that no hint computes yet and of which none is named twice
(`HintRegistry.Admits`). Otherwise the first offence decides the fault: arguments come before
outputs, and an output is judged by the registry and by the outputs that are named before it
(`HintRegistry.Refused`). So it is settled what becomes of every hint
(`System.hint_accepted_iff`).
-/

namespace RankOne

/-- If each cause leads to its fault and nothing fails without a cause, then the fault tells the
cause. -/
theorem eq_error_iff_of_causes {α : Type} {result : Except Fault α} {cause : Fault → Prop}
    (hcauses : ∀ fault, cause fault → result = .error fault)
    (htotal : (∃ a, result = .ok a) ∨ ∃ fault, cause fault) {fault : Fault} :
    result = .error fault ↔ cause fault := by
  refine ⟨fun herror => ?_, hcauses fault⟩
  rcases htotal with ⟨a, hok⟩ | ⟨fault', hcause⟩
  · rw [hok] at herror
    cases herror
  · rw [hcauses fault' hcause] at herror
    cases herror
    exact hcause

namespace HintRegistry

variable {r : HintRegistry} {l : Layout} {h : Hint} {w : Wire} {fault : Fault}

/-! ## Outputs -/

/-- Outputs that a further hint may have. -/
structure Admits (r : HintRegistry) (l : Layout) (outputs : List Wire) : Prop where
  declared : ∀ w ∈ outputs, w.index < l.wireCount
  internal : ∀ w ∈ outputs, l.isInput w = false
  fresh : ∀ w ∈ outputs, ∀ g ∈ r.hints, w ∉ g.outputs
  nodup : outputs.Nodup

/-- What is wrong with an output that is named after some others. -/
inductive OutputRefused (r : HintRegistry) (l : Layout) (earlier : List Wire) (w : Wire) :
    Fault → Prop
  | undeclared : l.wireCount ≤ w.index →
      OutputRefused r l earlier w (.undeclaredWire w l.wireCount)
  | input : l.isInput w = true → OutputRefused r l earlier w (.hintOutputIsInput w)
  | taken : w.index < l.wireCount → l.isInput w = false →
      (∃ g ∈ r.hints, w ∈ g.outputs) ∨ w ∈ earlier →
      OutputRefused r l earlier w (.hintOutputTaken w)

theorem OutputRefused.reverse {earlier : List Wire} (h : r.OutputRefused l earlier w fault) :
    r.OutputRefused l earlier.reverse w fault := by
  cases h with
  | undeclared hw => exact .undeclared hw
  | input hw => exact .input hw
  | taken hdeclared hinternal htaken =>
      exact .taken hdeclared hinternal (htaken.imp_right List.mem_reverse.mpr)

theorem Valid.isSome_place?_iff (hr : r.Valid l) :
    (r.place? w).isSome = true ↔ ∃ g ∈ r.hints, w ∈ g.outputs := by
  rw [← mem_outputWires, hr.mem_outputWires_iff, List.mem_flatMap]
  simp only [Array.mem_toList_iff]

theorem Valid.admits_iff (hr : r.Valid l) {outputs : List Wire} :
    r.Admits l outputs ↔ r.checkOutputs l [] outputs = .ok () := by
  have hfresh : ∀ w, r.place? w = none ↔ ∀ g ∈ r.hints, w ∉ g.outputs := by
    intro w
    rw [← Option.not_isSome_iff_eq_none, hr.isSome_place?_iff]
    simp
  rw [checkOutputs_eq_ok_iff]
  constructor
  · intro h
    refine ⟨h.nodup, fun w hw => ⟨h.declared w hw, h.internal w hw, ?_, List.not_mem_nil⟩⟩
    exact (hfresh w).mpr (h.fresh w hw)
  · rintro ⟨hnodup, hall⟩
    exact ⟨fun w hw => (hall w hw).1, fun w hw => (hall w hw).2.1,
      fun w hw => (hfresh w).mp (hall w hw).2.2.1, hnodup⟩

/-- Outputs are looked at one after another, each with those before it in mind. -/
theorem checkOutputs_append (r : HintRegistry) (l : Layout) (earlier xs ys : List Wire) :
    r.checkOutputs l earlier (xs ++ ys) =
      (r.checkOutputs l earlier xs).bind fun _ => r.checkOutputs l (xs.reverse ++ earlier) ys := by
  induction xs generalizing earlier with
  | nil => rfl
  | cons w rest ih =>
      rw [List.cons_append, checkOutputs, checkOutputs, ih, List.reverse_cons, List.append_assoc]
      cases l.check w with
      | error fault => rfl
      | ok u =>
          cases l.isInput w <;> cases (r.place? w).isSome || decide (w ∈ earlier) <;> rfl

theorem OutputRefused.checkOutputs_eq_error (hr : r.Valid l) {earlier : List Wire}
    (h : r.OutputRefused l earlier w fault) (rest : List Wire) :
    r.checkOutputs l earlier (w :: rest) = .error fault := by
  rw [checkOutputs]
  cases h with
  | undeclared hw => rw [Layout.check, if_neg (Nat.not_lt.mpr hw)]
  | input hw =>
      have hdeclared := Nat.lt_of_lt_of_le (Layout.isInput_iff.mp hw) l.inputCount_le_wireCount
      rw [Layout.check_eq_ok_iff.mpr hdeclared]
      exact if_pos hw
  | taken hdeclared hinternal htaken =>
      have hplace : ((r.place? w).isSome || decide (w ∈ earlier)) = true := by
        rw [Bool.or_eq_true, decide_eq_true_eq, hr.isSome_place?_iff]
        exact htaken
      rw [Layout.check_eq_ok_iff.mpr hdeclared]
      exact (if_neg (by simp [hinternal])).trans (if_pos hplace)

/-- After outputs that are admitted, a further one is admitted as well or it is refused. -/
theorem Admits.concat_or_refused {outputs : List Wire} (h : r.Admits l outputs) (w : Wire) :
    r.Admits l (outputs ++ [w]) ∨ ∃ fault, r.OutputRefused l outputs w fault := by
  by_cases hdeclared : w.index < l.wireCount
  · cases hinput : l.isInput w with
    | true => exact .inr ⟨_, .input hinput⟩
    | false =>
        by_cases htaken : (∃ g ∈ r.hints, w ∈ g.outputs) ∨ w ∈ outputs
        · exact .inr ⟨_, .taken hdeclared hinput htaken⟩
        · obtain ⟨hfresh, hnew⟩ := not_or.mp htaken
          left
          constructor
          · exact List.forall_mem_append.mpr ⟨h.declared, List.forall_mem_singleton.mpr hdeclared⟩
          · exact List.forall_mem_append.mpr ⟨h.internal, List.forall_mem_singleton.mpr hinput⟩
          · refine List.forall_mem_append.mpr ⟨h.fresh, List.forall_mem_singleton.mpr ?_⟩
            exact fun g hg hw => hfresh ⟨g, hg, hw⟩
          · rw [← List.concat_eq_append]
            exact (List.nodup_concat outputs w).mpr ⟨hnew, h.nodup⟩
  · exact .inr ⟨_, .undeclared (Nat.not_lt.mp hdeclared)⟩

/-- Of outputs that are not admitted, one is refused after others that are admitted. -/
theorem admits_or_refused (r : HintRegistry) (l : Layout) (outputs : List Wire) :
    r.Admits l outputs ∨ ∃ before w after fault, outputs = before ++ w :: after ∧
      r.Admits l before ∧ r.OutputRefused l before w fault := by
  induction outputs using List.reverseRecOn with
  | nil => exact .inl ⟨by simp, by simp, by simp, List.nodup_nil⟩
  | append_singleton outputs w ih =>
      rcases ih with hadmits | ⟨before, v, after, fault, rfl, hbefore, hv⟩
      · rcases hadmits.concat_or_refused w with hall | ⟨fault, hw⟩
        · exact .inl hall
        · exact .inr ⟨outputs, w, [], fault, rfl, hadmits, hw⟩
      · exact .inr ⟨before, v, after ++ [w], fault, by simp, hbefore, hv⟩

/-! ## Hints -/

/-- What is wrong with a hint: the first argument wire that is not declared or, if there is none,
the first output that is refused. -/
inductive Refused (r : HintRegistry) (l : Layout) (h : Hint) : Fault → Prop
  | argument {before w after} : h.inputWires = before ++ w :: after →
      (∀ u ∈ before, u.index < l.wireCount) → l.wireCount ≤ w.index →
      Refused r l h (.undeclaredWire w l.wireCount)
  | output {before w after fault} : (∀ u ∈ h.inputWires, u.index < l.wireCount) →
      h.outputs = before ++ w :: after → r.Admits l before → r.OutputRefused l before w fault →
      Refused r l h fault

/-- A hint fails the check with what is wrong with it, so there is one such fault only. -/
theorem Refused.check_eq_error (hr : r.Valid l) (hrefused : r.Refused l h fault) :
    r.check l h = .error fault := by
  unfold check
  cases hrefused with
  | argument hsplit hbefore hw =>
      rw [Layout.forM_check, Layout.firstUndeclared?_eq_some_iff.mpr ⟨_, _, hsplit, hbefore, hw⟩]
  | output harguments hsplit hbefore hw =>
      rw [Layout.forM_check_eq_ok_iff.mpr harguments, hsplit]
      show r.checkOutputs l [] _ = _
      rw [checkOutputs_append, hr.admits_iff.mp hbefore, List.append_nil]
      exact hw.reverse.checkOutputs_eq_error hr _

/-- With a hint that is not accepted, something is wrong. -/
theorem accepted_or_refused (hr : r.Valid l) (h : Hint) :
    r.check l h = .ok () ∨ ∃ fault, r.Refused l h fault := by
  cases hfirst : l.firstUndeclared? h.inputWires with
  | some w =>
      obtain ⟨before, after, hsplit, hbefore, hw⟩ := Layout.firstUndeclared?_eq_some_iff.mp hfirst
      exact .inr ⟨_, .argument hsplit hbefore hw⟩
  | none =>
      have harguments := Layout.firstUndeclared?_eq_none_iff.mp hfirst
      rcases r.admits_or_refused l h.outputs with
        hadmits | ⟨before, w, after, fault, hsplit, hbefore, hw⟩
      · left
        unfold check
        rw [Layout.forM_check_eq_ok_iff.mpr harguments]
        exact hr.admits_iff.mp hadmits
      · exact .inr ⟨fault, .output harguments hsplit hbefore hw⟩

theorem check_eq_error_iff (hr : r.Valid l) :
    r.check l h = .error fault ↔ r.Refused l h fault :=
  eq_error_iff_of_causes (fun _ hrefused => hrefused.check_eq_error hr)
    ((accepted_or_refused hr h).imp_left fun hok => ⟨(), hok⟩)

theorem accepted_iff (hr : r.Valid l) :
    r.check l h = .ok () ↔
      (∀ w ∈ h.inputWires, w.index < l.wireCount) ∧ r.Admits l h.outputs := by
  rw [hr.admits_iff, ← Layout.forM_check_eq_ok_iff, check]
  cases h.inputWires.forM l.check <;> simp

/-! ## Registered hints -/

/-- The outputs of a further hint stand for this hint. -/
theorem producer?_push_of_mem (hw : w ∈ h.outputs) :
    (r.push h).producer? w = some (r.hints.size, h) := by
  rw [producer?_eq_some_iff, place?_push, getElem?_hints_push, if_pos hw, if_pos rfl]
  exact ⟨rfl, rfl⟩

/-- All other wires stand for what they did. -/
theorem producer?_push_of_notMem (hr : r.Valid l) (hw : w ∉ h.outputs) :
    (r.push h).producer? w = r.producer? w := by
  unfold producer?
  rw [place?_push, if_neg hw]
  cases hplace : r.place? w with
  | none => rfl
  | some i =>
      -- the place of an older hint is not the next one
      obtain ⟨g, hget, -⟩ := (hr.place?_eq_some_iff w i).mp hplace
      have hold : i ≠ r.hints.size := by
        rintro rfl
        simp at hget
      simp only [Option.bind_some, getElem?_hints_push, if_neg hold]

end HintRegistry

namespace System

variable {F : Type} {s t : System F} {h : Hint}

theorem register_eq_error_iff {fault : Fault} :
    s.register h = (.error fault, s) ↔ s.hints.check s.layout h = .error fault := by
  rcases s.register_cases h with ⟨_, hcheck, hregister⟩ | ⟨hcheck, hregister⟩
  · simp [hcheck, hregister]
  · simp [hcheck, hregister]

variable [Zero F] [One F] [Add F] [Neg F] [DecidableEq F]

/-- In a reachable system a hint is accepted exactly if its arguments are declared and its outputs
are admitted. Otherwise the fault is the first thing that is wrong with it, and the system stays as
it is. A hint that is accepted takes the next place: its outputs stand for it, and all other wires,
among them the outputs of the hints before it, stand for what they did. -/
theorem hint_accepted_iff (hs : s.Reachable) (h : Hint) :
    ((∃ i t, s.register h = (.ok i, t)) ↔
        (∀ w ∈ h.inputWires, w.index < s.layout.wireCount) ∧
          s.hints.Admits s.layout h.outputs) ∧
      (∀ fault, s.register h = (.error fault, s) ↔ s.hints.Refused s.layout h fault) ∧
      (∀ fault, (s.call (.register h)).1 = .error fault → (s.call (.register h)).2 = s) ∧
      ∀ i t, s.register h = (.ok i, t) →
        i = s.hints.hints.size ∧ t = { s with hints := t.hints } ∧
          t.hints.hints = s.hints.hints.push h ∧
          (∀ w ∈ h.outputs, t.hints.producer? w = some (i, h)) ∧
          (∀ w ∉ h.outputs, t.hints.producer? w = s.hints.producer? w) ∧
          ∀ w j g, s.hints.producer? w = some (j, g) → t.hints.producer? w = some (j, g) := by
  have hvalid := valid_of_reachable hs
  refine ⟨?_, ?_, fun fault herror => register_of_error (reply_fst_eq_error_iff.mp herror), ?_⟩
  · rw [← HintRegistry.accepted_iff hvalid]
    constructor
    · rintro ⟨i, t, hok⟩
      exact (register_eq_ok_iff.mp hok).1
    · intro hcheck
      exact ⟨_, _, register_eq_ok_iff.mpr ⟨hcheck, rfl, rfl⟩⟩
  · intro fault
    rw [register_eq_error_iff, HintRegistry.check_eq_error_iff hvalid]
  · intro i t hok
    obtain ⟨hcheck, rfl, rfl⟩ := register_eq_ok_iff.mp hok
    have hothers : ∀ w ∉ h.outputs, (s.hints.push h).producer? w = s.hints.producer? w :=
      fun w hw => HintRegistry.producer?_push_of_notMem hvalid hw
    refine ⟨rfl, rfl, rfl, fun w hw => HintRegistry.producer?_push_of_mem hw, hothers, ?_⟩
    intro w j g hproducer
    -- what an older hint computes is not among the new outputs
    have hold : w ∉ h.outputs := by
      intro hw
      have hfresh := ((HintRegistry.accepted_iff hvalid).mp hcheck).2.fresh w hw
      obtain ⟨hget, hmem⟩ := hvalid.producer?_eq_some_iff_mem.mp hproducer
      exact hfresh g (Array.mem_of_getElem? hget) hmem
    rw [hothers w hold, hproducer]

/-- A hint from some wires to others. -/
def hintOver (inputs outputs : List Nat) : Hint :=
  ⟨⟨0⟩, [⟨inputs.map fun i => ⟨.one, ⟨i⟩⟩⟩], outputs.map Wire.mk⟩

/-- Four internal wires, of which a hint that reads one of its outputs computes two. -/
def overlapRun : List (Call (Residue 17)) :=
  [.declarePublic "x", .declareInternal, .declareInternal, .declareInternal, .declareInternal,
    .register (hintOver [1, 3] [2, 3])]

/-- Wire 5 is named twice, wire 2 is computed already, wire 1 is an input and wire 8 is not
declared. A zero term may name any wire. -/
theorem hint_accepted_iff_overlapping :
    ((empty {}).run overlapRun).register (hintOver [4] [5, 4, 5, 9]) =
        (.error (.hintOutputTaken ⟨5⟩), (empty {}).run overlapRun) ∧
      ((empty {}).run overlapRun).register (hintOver [] [4, 2, 9]) =
        (.error (.hintOutputTaken ⟨2⟩), (empty {}).run overlapRun) ∧
      ((empty {}).run overlapRun).register (hintOver [] [4, 1, 2]) =
        (.error (.hintOutputIsInput ⟨1⟩), (empty {}).run overlapRun) ∧
      ((empty {}).run overlapRun).register (hintOver [5, 8, 9] [1]) =
        (.error (.undeclaredWire ⟨8⟩ 6), (empty {}).run overlapRun) ∧
      ∃ i t, ((empty {}).run overlapRun).register
          ⟨⟨1⟩, [⟨[⟨.zero, ⟨9⟩⟩, ⟨.one, ⟨5⟩⟩]⟩], [⟨4⟩, ⟨5⟩]⟩ = (.ok i, t) ∧
        i = 1 ∧ t.hints.producer? ⟨3⟩ = some (0, hintOver [1, 3] [2, 3]) ∧
        ∃ g, t.hints.producer? ⟨4⟩ = some (i, g) := by
  have haccepted := hint_accepted_iff ((reachable_empty {}).run overlapRun)
  have hadmits : ((empty {}).run overlapRun).hints.Admits ((empty {}).run overlapRun).layout
      [⟨5⟩, ⟨4⟩] := ⟨by decide, by decide, by decide, by decide⟩
  refine ⟨((haccepted _).2.1 _).mpr ?_, ((haccepted _).2.1 _).mpr ?_, ((haccepted _).2.1 _).mpr ?_,
    ((haccepted _).2.1 _).mpr ?_, ?_⟩
  · have hsplit : (hintOver [4] [5, 4, 5, 9]).outputs = [⟨5⟩, ⟨4⟩] ++ Wire.mk 5 :: [⟨9⟩] := rfl
    exact .output (by decide) hsplit hadmits (.taken (by decide) (by decide) (by decide))
  · have hsplit : (hintOver [] [4, 2, 9]).outputs = [⟨4⟩] ++ Wire.mk 2 :: [⟨9⟩] := rfl
    exact .output (by decide) hsplit ⟨by decide, by decide, by decide, by decide⟩
      (.taken (by decide) (by decide) (by decide))
  · have hsplit : (hintOver [] [4, 1, 2]).outputs = [⟨4⟩] ++ Wire.mk 1 :: [⟨2⟩] := rfl
    exact .output (by decide) hsplit ⟨by decide, by decide, by decide, by decide⟩
      (.input (by decide))
  · have hsplit : (hintOver [5, 8, 9] [1]).inputWires = [⟨5⟩] ++ Wire.mk 8 :: [⟨9⟩] := rfl
    exact .argument hsplit (by decide) (by decide)
  · have harguments : ∀ w ∈ [(⟨5⟩ : Wire)],
        w.index < ((empty {}).run overlapRun).layout.wireCount := by decide
    obtain ⟨i, t, hok⟩ := (haccepted ⟨⟨1⟩, [⟨[⟨.zero, ⟨9⟩⟩, ⟨.one, ⟨5⟩⟩]⟩], [⟨4⟩, ⟨5⟩]⟩).1.mpr
      ⟨harguments, ⟨by decide, by decide, by decide, by decide⟩⟩
    obtain ⟨hplace, -, -, hnew, -, hkept⟩ := (haccepted _).2.2.2 i t hok
    exact ⟨i, t, hok, hplace.trans (by decide), hkept _ _ _ (by decide), _, hnew _ (by decide)⟩

end System

end RankOne

import RankOne.Proofs.Coverage
import RankOne.Proofs.Machine.Basic

/-!
# Operations that do not crash

What a machine does with a cursor, a layout, a registry of hints or a tally comes to the usual
result as long as the wires, or the terms of the constraint, can be counted in words. Each read at a
place is justified by what is kept elsewhere: the constant one is always an input, the outputs
before one are among all outputs, and a tally accounts for what it has not met
(`Tally.Accounts`), so a counter that is counted down is not zero (`Machine.note_eq_ok`).
-/

namespace RankOne

/-- A cursor stays in its constraint. -/
theorem Cursor.constraint_of_next {c d : Cursor} {w : Option Wire} (h : c.next = (w, d)) :
    d.constraint = c.constraint := by
  unfold Cursor.next at h
  split at h <;> cases h <;> rfl

namespace Machine

/-! ## Cursors -/

section Cursors

variable {c : Cursor}

theorem ends_eq_ok {c : Constraint} (h : c.wires.length < wordCount) :
    ends c = .ok (c.left.length, c.left.length + c.right.length,
      c.left.length + c.right.length + c.output.length) := by
  have hfinish : (Cursor.start c).finish < wordCount :=
    (Cursor.start c).finish_eq_length_wires ▸ h
  simp only [Cursor.finish, Cursor.start] at hfinish
  unfold ends
  rw [plus_eq_ok (by omega)]
  show (plus (c.left.length + c.right.length) c.output.length >>= _) = _
  rw [plus_eq_ok hfinish]
  rfl

theorem pass_eq_ok (hfits : c.constraint.wires.length < wordCount) (h : c.position < c.finish)
    (t : Term) : pass c t = .ok (some t.wire, { c with position := c.position + 1 }) := by
  rw [← c.finish_eq_length_wires] at hfits
  unfold pass
  rw [plus_eq_ok (by omega)]
  rfl

theorem exists_fetch_pass (hfits : c.constraint.wires.length < wordCount)
    (h : c.position < c.finish) {ts : List Term} {i : Nat} (hi : i < ts.length) :
    ∃ r, fetch ts i >>= pass c = .ok r := by
  obtain ⟨t, ht⟩ := exists_fetch hi
  exact ⟨_, bind_eq_ok_iff.mpr ⟨t, ht, pass_eq_ok hfits h t⟩⟩

/-- Each place before the end is one of a side. -/
theorem next_eq_ok (hfits : c.constraint.wires.length < wordCount) : next c = .ok c.next := by
  have hfound : ∃ r, next c = .ok r := by
    have hfinish : c.finish = c.constraint.left.length + c.constraint.right.length +
      c.constraint.output.length := rfl
    unfold next
    rw [ends_eq_ok hfits]
    show ∃ r, (if c.position < c.constraint.left.length then _
      else if c.position < c.constraint.left.length + c.constraint.right.length then _
      else if c.position < c.finish then _ else _) = _
    by_cases hleft : c.position < c.constraint.left.length
    · rw [if_pos hleft]
      exact exists_fetch_pass hfits (by omega) hleft
    · by_cases hright : c.position < c.constraint.left.length + c.constraint.right.length
      · have hplace : c.position - c.constraint.left.length < c.constraint.right.length := by omega
        obtain ⟨r, hr⟩ := exists_fetch_pass hfits (by omega) hplace
        rw [if_neg hleft, if_pos hright]
        exact ⟨r, bind_eq_ok_iff.mpr ⟨_, minus_eq_ok (by omega), hr⟩⟩
      · rw [if_neg hleft, if_neg hright]
        by_cases hbefore : c.position < c.finish
        · have hplace : c.position - (c.constraint.left.length + c.constraint.right.length) <
            c.constraint.output.length := by omega
          obtain ⟨r, hr⟩ := exists_fetch_pass hfits hbefore hplace
          rw [if_pos hbefore]
          exact ⟨r, bind_eq_ok_iff.mpr ⟨_, minus_eq_ok (by omega), hr⟩⟩
        · rw [if_neg hbefore]
          exact ⟨_, rfl⟩
  obtain ⟨r, hr⟩ := hfound
  rw [hr, eq_of_next hr]

theorem remaining_eq_ok (hfits : c.constraint.wires.length < wordCount) :
    remaining c = .ok c.length := by
  unfold remaining
  rw [ends_eq_ok hfits]
  exact minus_eq_ok (Nat.min_le_right _ _)

theorem walk_eq_ok (hfits : c.constraint.wires.length < wordCount) :
    walk c = .ok c.drain.1 := by
  have hnext := next_eq_ok hfits
  fun_induction Cursor.drain c with
  | case1 c d h => rw [walk_eq, hnext, h]
  | case2 c w d h ih =>
      have hsame : d.constraint = c.constraint := Cursor.constraint_of_next h
      rw [← hsame] at hfits
      have hrest := ih hfits (next_eq_ok hfits)
      rw [walk_eq, hnext, h]
      show (walk d).map (w :: ·) = _
      rw [hrest]
      rfl

end Cursors

/-! ## Layouts -/

section Layout

variable {l : Layout}

theorem inputCount_eq_ok (h : l.wireCount < wordCount) : inputCount l = .ok l.inputCount :=
  plus_eq_ok (Nat.lt_of_le_of_lt l.inputCount_le_wireCount h)

theorem declaredCount_eq_ok (h : l.wireCount < wordCount) : declaredCount l = .ok l.wireCount := by
  unfold declaredCount
  rw [inputCount_eq_ok h]
  exact plus_eq_ok h

theorem check_eq_ok (h : l.wireCount < wordCount) (w : Wire) : check l w = .ok (l.check w) := by
  unfold check Layout.check
  rw [declaredCount_eq_ok h]
  show (if w.index < l.wireCount then _ else _) = _
  split <;> rfl

theorem checkAll_eq_ok (h : l.wireCount < wordCount) (ws : List Wire) :
    checkAll l ws = .ok (ws.forM l.check) := by
  induction ws with
  | nil => rfl
  | cons w rest ih =>
      show _ = Except.ok (l.check w >>= fun _ => rest.forM l.check)
      rw [checkAll, check_eq_ok h]
      cases l.check w with
      | error fault => rfl
      | ok => exact ih

theorem isInput_eq_ok (h : l.wireCount < wordCount) (w : Wire) :
    isInput l w = .ok (l.isInput w) := by
  unfold isInput
  rw [inputCount_eq_ok h]
  rfl

/-- Counting from the end of the public names is counting through all names. -/
theorem name?_eq (l : Layout) (w : Wire) : name? l w = l.name? w := by
  have hlength : l.publicNames.length = l.publicCount := by
    simp [Layout.publicNames, Layout.publicCount]
  rw [Layout.name?_eq_getElem?, name?, Layout.inputNames, List.getElem?_append, hlength]

theorem declarePublic_eq_ok (l : Layout) (name : String) :
    declarePublic l name = .ok (l.declarePublic name) := by
  unfold declarePublic Layout.declarePublic
  split
  · rfl
  · split
    · rfl
    · -- the constant one is always there, so the last name has a place
      have hlast : minus (l.publicInputs.push name).size.succ 1 = .ok l.publicCount := by
        rw [minus_eq_ok (by omega), Array.size_push]
        rfl
      show (minus (l.publicInputs.push name).size.succ 1 >>= _) = _
      rw [hlast]
      rfl

theorem declareSecret_eq_ok {name : String}
    (h : ∀ w after, l.declareSecret name = .ok (w, after) → after.wireCount < wordCount) :
    declareSecret l name = .ok (l.declareSecret name) := by
  unfold declareSecret
  unfold Layout.declareSecret at h ⊢
  split
  · rfl
  · rename_i hinternal
    rw [if_neg hinternal] at h
    have hafter := h _ _ rfl
    show (inputCount _ >>= fun n => minus n 1 >>= _) = _
    rw [inputCount_eq_ok hafter]
    have hlast : minus (Layout.inputCount
        { l with secretInputs := l.secretInputs.push name }) 1 = .ok l.inputCount := by
      have hcount : Layout.inputCount { l with secretInputs := l.secretInputs.push name } =
          l.inputCount + 1 := by
        simp only [Layout.inputCount, Layout.publicCount, Layout.secretCount, Array.size_push]
        omega
      rw [hcount, minus_eq_ok (by omega)]
      rfl
    show (minus _ 1 >>= _) = _
    rw [hlast]
    rfl

theorem declareInternal_eq_ok (h : l.wireCount < wordCount) :
    declareInternal l = .ok l.declareInternal := by
  have hnext : plus l.internalCount 1 = .ok (l.internalCount + 1) := by
    -- the constant one is no internal wire
    have hpos := l.inputCount_pos
    refine plus_eq_ok ?_
    unfold Layout.wireCount at h
    omega
  unfold declareInternal
  rw [declaredCount_eq_ok h]
  show (plus l.internalCount 1 >>= _) = _
  rw [hnext]
  rfl

end Layout

/-! ## Hints -/

section Hints

variable {r : HintRegistry} {l : Layout}

/-- The outputs before the next one are those that were looked at. -/
theorem checkOutputs_eq_ok (h : l.wireCount < wordCount) {outputs : List Wire}
    (earlier rest : List Wire) (houtputs : outputs = earlier ++ rest) :
    checkOutputs r l outputs earlier.length rest = .ok (r.checkOutputs l earlier.reverse rest) := by
  induction rest generalizing earlier with
  | nil => rfl
  | cons w rest ih =>
      have hbefore : before outputs earlier.length = .ok earlier := by
        rw [before_eq_ok (by rw [houtputs, List.length_append]; omega), houtputs, List.take_left]
      have hnext := ih (earlier ++ [w]) (by rw [houtputs]; simp)
      rw [List.length_append, List.length_singleton, List.reverse_append] at hnext
      rw [checkOutputs, HintRegistry.checkOutputs, check_eq_ok h]
      cases l.check w with
      | error fault => rfl
      | ok =>
          show (isInput l w >>= _) = _
          rw [isInput_eq_ok h]
          cases hinput : l.isInput w with
          | true => rfl
          | false =>
              cases hplace : (r.place? w).isSome with
              | true => rfl
              | false =>
                  show (before outputs earlier.length >>= _) = _
                  rw [hbefore]
                  show (if w ∈ earlier then _ else _) = _
                  by_cases hw : w ∈ earlier
                  · simp only [hw, if_true, Bool.false_or, List.mem_reverse, decide_true]
                    rfl
                  · simpa [hw] using hnext

theorem register_eq_ok (h : l.wireCount < wordCount) (hint : Hint) :
    register r l hint = .ok (r.register l hint) := by
  unfold register HintRegistry.register HintRegistry.check
  rw [checkAll_eq_ok h]
  cases hint.inputWires.forM l.check with
  | error fault => rfl
  | ok =>
      have houtputs : checkOutputs r l hint.outputs 0 hint.outputs =
          .ok (r.checkOutputs l [] hint.outputs) :=
        checkOutputs_eq_ok h [] hint.outputs rfl
      show (checkOutputs r l hint.outputs 0 hint.outputs >>= _) = _
      rw [houtputs]
      cases hcheck : r.checkOutputs l [] hint.outputs <;> rfl

end Hints

/-! ## Coverage -/

section Coverage

variable {l : Layout} {r : HintRegistry} {t : Tally} {ws : List Wire}

/-- A counter is not zero before a wire that it waits for is counted down. -/
theorem note_eq_ok (ht : t.Accounts l r ws) (w : Wire) : note r t w = .ok (t.note r w) := by
  unfold note Tally.note
  have hflag := ht.inputs.flag w.index
  cases hseen : t.inputsSeen[w.index]? with
  | none =>
      by_cases hnew : ((r.place? w).isSome && w ∉ t.outputsSeen) = true
      · obtain ⟨hplace, hunseen⟩ := Bool.and_eq_true_iff.mp hnew
        have hw : w ∈ r.outputWires := HintRegistry.mem_outputWires.mpr hplace
        have hwaits : w ∉ ws :=
          fun hmem => of_decide_eq_true hunseen ((ht.outputs.seen w).mpr ⟨hw, hmem⟩)
        have hpos : 0 < t.outputsLeft := by
          rw [ht.outputs.left, List.countP_pos_iff]
          exact ⟨w, hw, decide_eq_true hwaits⟩
        simp only [if_pos hnew, minus_eq_ok hpos]
        rfl
      · simp only [if_neg hnew]
        rfl
  | some seen =>
      cases seen with
      | true => rfl
      | false =>
          rw [hseen] at hflag
          have hlt : w.index < l.inputCount := by
            by_contra hge
            rw [if_neg hge] at hflag
            cases hflag
          rw [if_pos hlt, Option.some.injEq, eq_comm, decide_eq_false_iff_not, not_or] at hflag
          have hpos : 0 < t.inputsLeft := by
            rw [ht.inputs.left, List.countP_pos_iff]
            refine ⟨w, Layout.mem_declaredInputs.mpr ⟨?_, hlt⟩, decide_eq_true hflag.2⟩
            exact Nat.pos_of_ne_zero hflag.1
          simp only [minus_eq_ok hpos]
          rfl

variable {F : Type} {s : System F}

theorem noteAll_eq_ok (hfits : s.layout.wireCount < wordCount) (hs : s.hints.Valid s.layout)
    (ht : t.Accounts s.layout s.hints ws) (more : List Wire) :
    noteAll s more t = .ok (s.noteAll more t) := by
  induction more generalizing t ws with
  | nil => rfl
  | cons w rest ih =>
      rw [noteAll, System.noteAll, check_eq_ok hfits]
      cases s.layout.check w with
      | error fault => rfl
      | ok =>
          show (note s.hints t w >>= fun noted => noteAll s rest noted) = _
          rw [note_eq_ok ht]
          exact ih (ht.note hs w)

theorem scan_eq_ok (hfits : s.layout.wireCount < wordCount) (hs : s.hints.Valid s.layout)
    (ht : t.Accounts s.layout s.hints ws) (cs : List Constraint) :
    scan s cs t = .ok (s.scan cs t) := by
  induction cs generalizing t ws with
  | nil => rfl
  | cons c rest ih =>
      rw [scan, System.scan, noteAll_eq_ok hfits hs ht]
      cases hnoted : s.noteAll c.nonzeroWires t with
      | error fault => rfl
      | ok noted =>
          show (if noted.isComplete then _ else _) = _
          cases hcomplete : noted.isComplete with
          | true =>
              simp only [hcomplete, if_true]
              rfl
          | false =>
              simp only [hcomplete, Bool.false_eq_true, if_false]
              exact ih (System.accounts_of_noteAll hs ht hnoted)

/-- The constant one has a flag. -/
theorem startTally_eq_ok (hfits : s.layout.wireCount < wordCount) :
    startTally s = .ok (Tally.start s.layout s.hints) := by
  have hpos := s.layout.inputCount_pos
  unfold startTally
  rw [inputCount_eq_ok hfits]
  show (store (Array.replicate s.layout.inputCount false) 0 true >>= _) = _
  rw [store_eq_ok (by simpa using hpos)]
  show (minus ((Array.replicate s.layout.inputCount false).setIfInBounds 0 true).size 1 >>= _) = _
  rw [Array.size_setIfInBounds, Array.size_replicate, minus_eq_ok hpos]
  rfl

theorem reportCoverage_eq_ok (hfits : s.layout.wireCount < wordCount)
    (hs : s.hints.Valid s.layout) : reportCoverage s = .ok s.reportCoverage := by
  unfold reportCoverage System.reportCoverage
  rw [startTally_eq_ok hfits]
  show (if (Tally.start s.layout s.hints).inputsLeft = 0 then _ else _) = _
  by_cases hnone : (Tally.start s.layout s.hints).inputsLeft = 0
  · simp only [if_pos hnone]
    rfl
  · simp only [if_neg hnone, scan_eq_ok hfits hs (Tally.accounts_start _ _)]
    cases s.scan s.constraints (Tally.start s.layout s.hints) <;> rfl

theorem checkWitness_eq_ok [Zero F] [One F] [Add F] [Neg F] [Mul F] [DecidableEq F] [ToString F]
    (hfits : s.layout.wireCount < wordCount) (witness : Array F) :
    checkWitness s witness = .ok (s.checkWitness witness) := by
  unfold checkWitness System.checkWitness
  rw [declaredCount_eq_ok hfits]
  show (if witness.size ≠ s.layout.wireCount then _ else _) = _
  split
  · rfl
  · split <;> rfl

end Coverage

end Machine

end RankOne

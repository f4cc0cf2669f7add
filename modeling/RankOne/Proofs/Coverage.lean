import Mathlib.Data.Finset.Card
import RankOne.Proofs.Registry
import RankOne.System.Coverage

/-!
# What a coverage report says

A tally accounts for the wires that it has noted (`Tally.Accounts`): its flags and its list say
which of them have occurred, and its counters how many wires have not. A complete tally accounts for
any further wires as well, so the constraints that a scan does not look at make no difference. The
report of a reachable system is then that of a full scan (`System.reportCoverage_full_scan`).
-/

namespace RankOne

/-! ## Counting wires that have not occurred -/

/-- A wire that occurs for the first time is one less to wait for. -/
theorem countP_notMem_concat {xs ws : List Wire} {w : Wire} (hxs : xs.Nodup) (hw : w ∈ xs)
    (hnew : w ∉ ws) :
    xs.countP (fun u => u ∉ ws) = xs.countP (fun u => u ∉ ws ++ [w]) + 1 := by
  induction xs with
  | nil => cases hw
  | cons x rest ih =>
      obtain ⟨hx, hrest⟩ := List.nodup_cons.mp hxs
      rcases List.mem_cons.mp hw with rfl | hw
      · have hsame : rest.countP (fun u => u ∉ ws) = rest.countP fun u => u ∉ ws ++ [w] := by
          apply List.countP_congr
          intro u hu
          have hne : u ≠ w := fun heq => hx (heq ▸ hu)
          simp [hne]
        rw [List.countP_cons_of_pos (by simpa using hnew), List.countP_cons_of_neg (by simp), hsame]
      · have hne : x ≠ w := fun heq => hx (heq ▸ hw)
        simp only [List.countP_cons, ih hrest hw, List.mem_append, List.mem_singleton, hne,
          or_false]
        omega

/-- A wire that is not waited for changes no count. -/
theorem countP_notMem_concat_of_imp {xs ws : List Wire} {w : Wire} (h : w ∈ xs → w ∈ ws) :
    xs.countP (fun u => u ∉ ws ++ [w]) = xs.countP fun u => u ∉ ws := by
  apply List.countP_congr
  intro u hu
  by_cases heq : u = w
  · subst heq
    simp [h hu]
  · simp [heq]

namespace Layout

variable {l : Layout} {w : Wire}

theorem mem_declaredInputs : w ∈ l.declaredInputs ↔ 0 < w.index ∧ w.index < l.inputCount := by
  rw [declaredInputs, List.mem_map]
  constructor
  · rintro ⟨i, hi, rfl⟩
    have hrange := List.mem_range'_1.mp hi
    have hpos := l.inputCount_pos
    show 0 < i ∧ i < l.inputCount
    omega
  · rintro ⟨hpos, hlt⟩
    exact ⟨w.index, List.mem_range'_1.mpr (by omega), rfl⟩

theorem nodup_declaredInputs (l : Layout) : l.declaredInputs.Nodup := by
  refine List.Nodup.map (fun i j h => ?_) List.nodup_range'
  exact congrArg Wire.index h

theorem length_declaredInputs (l : Layout) : l.declaredInputs.length = l.inputCount - 1 := by
  rw [declaredInputs, List.length_map, List.length_range']

end Layout

/-! ## Tallies -/

namespace Tally

variable {l : Layout} {r : HintRegistry} {t : Tally} {ws : List Wire} {w : Wire}

/-- The input side of a tally when some wires have occurred. -/
structure CountsInputs (l : Layout) (t : Tally) (ws : List Wire) : Prop where
  flag : ∀ i, t.inputsSeen[i]? =
    if i < l.inputCount then some (decide (i = 0 ∨ (⟨i⟩ : Wire) ∈ ws)) else none
  left : t.inputsLeft = l.declaredInputs.countP fun w => w ∉ ws

/-- The side of the hints. -/
structure CountsOutputs (r : HintRegistry) (t : Tally) (ws : List Wire) : Prop where
  seen : ∀ w, w ∈ t.outputsSeen ↔ w ∈ r.outputWires ∧ w ∈ ws
  left : t.outputsLeft = r.outputWires.countP fun w => w ∉ ws

/-- What a tally holds when some wires have occurred. -/
structure Accounts (l : Layout) (r : HintRegistry) (t : Tally) (ws : List Wire) : Prop where
  inputs : t.CountsInputs l ws
  outputs : t.CountsOutputs r ws

theorem accounts_start (l : Layout) (r : HintRegistry) : (start l r).Accounts l r [] := by
  refine ⟨⟨?_, ?_⟩, ⟨?_, ?_⟩⟩
  · intro i
    have hpos := l.inputCount_pos
    simp only [start, Array.getElem?_setIfInBounds, Array.size_replicate, Array.getElem?_replicate]
    by_cases hi : i = 0
    · subst hi
      simp [hpos]
    · simp [hi, Ne.symm hi]
  · simp [start, l.length_declaredInputs]
  · simp [start]
  · simp [start, HintRegistry.outputWires, HintRegistry.outputCount, WireMap.length_wires]

theorem inputsLeft_start_eq_zero_iff : (start l r).inputsLeft = 0 ↔ l.declaredInputs = [] := by
  rw [← List.length_eq_zero_iff, Layout.length_declaredInputs]
  rfl

/-! ### Wires that are no news -/

theorem CountsInputs.concat (h : t.CountsInputs l ws)
    (hw : w.index < l.inputCount → w.index = 0 ∨ w ∈ ws) : t.CountsInputs l (ws ++ [w]) := by
  refine ⟨?_, ?_⟩
  · intro i
    rw [h.flag]
    by_cases hi : i < l.inputCount
    · rw [if_pos hi, if_pos hi, Option.some.injEq, decide_eq_decide, List.mem_append,
        List.mem_singleton]
      constructor
      · rintro (hzero | hold)
        · exact .inl hzero
        · exact .inr (.inl hold)
      · rintro (hzero | hold | rfl)
        · exact .inl hzero
        · exact .inr hold
        · exact hw hi
    · rw [if_neg hi, if_neg hi]
  · rw [countP_notMem_concat_of_imp, h.left]
    intro hmem
    obtain ⟨hpos, hlt⟩ := Layout.mem_declaredInputs.mp hmem
    exact (hw hlt).resolve_left (by omega)

theorem CountsOutputs.concat (h : t.CountsOutputs r ws) (hw : w ∈ r.outputWires → w ∈ ws) :
    t.CountsOutputs r (ws ++ [w]) := by
  refine ⟨?_, ?_⟩
  · intro u
    rw [h.seen, List.mem_append, List.mem_singleton]
    refine and_congr_right fun hu => ⟨.inl, ?_⟩
    rintro (hold | rfl)
    · exact hold
    · exact hw hu
  · rw [countP_notMem_concat_of_imp hw, h.left]

/-! ### Wires that occur for the first time -/

theorem CountsInputs.mark (h : t.CountsInputs l ws) (hinput : w.index < l.inputCount)
    (hzero : w.index ≠ 0) (hnew : w ∉ ws) :
    ({ t with
      inputsSeen := t.inputsSeen.setIfInBounds w.index true
      inputsLeft := t.inputsLeft - 1 } : Tally).CountsInputs l (ws ++ [w]) := by
  refine ⟨?_, ?_⟩
  · intro i
    have hsize : w.index < t.inputsSeen.size := by
      have hflag := h.flag w.index
      rw [if_pos hinput] at hflag
      exact (Array.getElem?_eq_some_iff.mp hflag).1
    rw [Array.getElem?_setIfInBounds, h.flag]
    by_cases heq : w.index = i
    · subst heq
      simp [hsize, hinput]
    · have hne : (⟨i⟩ : Wire) ≠ w := fun h => heq (h ▸ rfl)
      simp [heq, hne]
  · have hw : w ∈ l.declaredInputs := Layout.mem_declaredInputs.mpr ⟨by omega, hinput⟩
    show t.inputsLeft - 1 = _
    rw [h.left, countP_notMem_concat l.nodup_declaredInputs hw hnew, Nat.add_sub_cancel]

theorem CountsOutputs.mark (h : t.CountsOutputs r ws) (hw : w ∈ r.outputWires) (hnew : w ∉ ws) :
    ({ t with
      outputsSeen := w :: t.outputsSeen
      outputsLeft := t.outputsLeft - 1 } : Tally).CountsOutputs r (ws ++ [w]) := by
  refine ⟨?_, ?_⟩
  · intro u
    rw [List.mem_cons, h.seen, List.mem_append, List.mem_singleton]
    constructor
    · rintro (rfl | ⟨hu, hold⟩)
      · exact ⟨hw, .inr rfl⟩
      · exact ⟨hu, .inl hold⟩
    · rintro ⟨hu, hold | rfl⟩
      · exact .inr ⟨hu, hold⟩
      · exact .inl rfl
  · show t.outputsLeft - 1 = _
    rw [h.left, countP_notMem_concat r.nodup_outputWires hw hnew, Nat.add_sub_cancel]

/-- Noting a wire accounts for it, however often it has occurred before. -/
theorem Accounts.note (h : t.Accounts l r ws) (hr : r.Valid l) (w : Wire) :
    (t.note r w).Accounts l r (ws ++ [w]) := by
  have hflag := h.inputs.flag w.index
  by_cases hinput : w.index < l.inputCount
  · -- an input is no output of a hint
    have houtput : w ∉ r.outputWires := by
      intro hmem
      have hinternal := hr.internal_of_mem_outputWires hmem
      rw [Layout.isInput_iff.mpr hinput] at hinternal
      cases hinternal
    have houtputs := h.outputs.concat fun hw => absurd hw houtput
    rw [if_pos hinput] at hflag
    by_cases hseen : w.index = 0 ∨ w ∈ ws
    · rw [decide_eq_true hseen] at hflag
      rw [Tally.note, hflag]
      exact ⟨h.inputs.concat fun _ => hseen, houtputs⟩
    · rw [decide_eq_false hseen] at hflag
      rw [Tally.note, hflag]
      obtain ⟨hzero, hnew⟩ := not_or.mp hseen
      exact ⟨h.inputs.mark hinput hzero hnew, houtputs.seen, houtputs.left⟩
  · -- there is no flag for a wire that is no input
    have hinputs := h.inputs.concat fun hlt => absurd hlt hinput
    rw [if_neg hinput] at hflag
    rw [Tally.note, hflag]
    show (if (r.place? w).isSome && w ∉ t.outputsSeen then _ else t).Accounts l r (ws ++ [w])
    by_cases hnew : w ∈ r.outputWires ∧ w ∉ ws
    · obtain ⟨hw, hnew⟩ := hnew
      have hunseen : w ∉ t.outputsSeen := fun hmem => hnew ((h.outputs.seen w).mp hmem).2
      rw [if_pos (by simp [HintRegistry.mem_outputWires.mp hw, hunseen])]
      exact ⟨⟨hinputs.flag, hinputs.left⟩, h.outputs.mark hw hnew⟩
    · have hold : w ∈ r.outputWires → w ∈ ws := fun hw => by_contra fun h => hnew ⟨hw, h⟩
      rw [if_neg]
      · exact ⟨hinputs, h.outputs.concat hold⟩
      · rw [Bool.and_eq_true, ← HintRegistry.mem_outputWires, decide_eq_true_eq]
        rintro ⟨hw, hunseen⟩
        exact hunseen ((h.outputs.seen w).mpr ⟨hw, hold hw⟩)

/-- A complete tally accounts for whatever else may occur. -/
theorem Accounts.of_isComplete (h : t.Accounts l r ws) (hcomplete : t.isComplete = true)
    (more : List Wire) : t.Accounts l r (ws ++ more) := by
  simp only [isComplete, Bool.and_eq_true, decide_eq_true_eq] at hcomplete
  induction more generalizing ws with
  | nil => rwa [List.append_nil]
  | cons w more ih =>
      have hinputs : w.index < l.inputCount → w.index = 0 ∨ w ∈ ws := by
        intro hlt
        have hleft := h.inputs.left.symm.trans hcomplete.1
        rw [List.countP_eq_zero] at hleft
        by_cases hzero : w.index = 0
        · exact .inl hzero
        · have hw : w ∈ l.declaredInputs := Layout.mem_declaredInputs.mpr ⟨by omega, hlt⟩
          exact .inr (by simpa using hleft w hw)
      have houtputs : w ∈ r.outputWires → w ∈ ws := by
        intro hw
        have hleft := h.outputs.left.symm.trans hcomplete.2
        rw [List.countP_eq_zero] at hleft
        simpa using hleft w hw
      rw [← List.singleton_append, ← List.append_assoc]
      exact ih ⟨h.inputs.concat hinputs, h.outputs.concat houtputs⟩

theorem CountsInputs.toList_inputsSeen (h : t.CountsInputs l ws) :
    t.inputsSeen.toList =
      (List.range l.inputCount).map fun i => decide (i = 0 ∨ (⟨i⟩ : Wire) ∈ ws) := by
  apply List.ext_getElem?
  intro i
  rw [Array.getElem?_toList, h.flag, List.getElem?_map]
  by_cases hi : i < l.inputCount
  · rw [if_pos hi, List.getElem?_range hi]
    rfl
  · rw [if_neg hi, List.getElem?_eq_none (by simpa using hi)]
    rfl

/-- The names are those of the inputs that have not occurred. -/
theorem CountsInputs.namesLeft (h : t.CountsInputs l ws) :
    t.namesLeft l = (l.declaredInputs.filter fun w => w ∉ ws).filterMap l.name? := by
  -- the constant one has the first flag, which is set from the start
  have hrange : List.range l.inputCount = 0 :: List.range' 1 (l.inputCount - 1) := by
    obtain ⟨n, hn⟩ := Nat.exists_eq_add_one.mpr l.inputCount_pos
    rw [hn, List.range_eq_range', List.range'_succ, Nat.add_sub_cancel]
  have hzip : ∀ n (f : Nat → Bool), ((List.range n).map f).zipIdx =
      (List.range n).map fun i => (f i, i) := by
    intro n f
    apply List.ext_getElem (by simp)
    intro i _ _
    simp
  rw [Tally.namesLeft, h.toList_inputsSeen, hzip, List.filter_map, List.filterMap_map, hrange,
    Layout.declaredInputs, List.filter_map, List.filterMap_map, List.filter_cons_of_neg (by simp)]
  apply congrArg (List.filterMap _)
  apply List.filter_congr
  intro i hi
  have hpos : i ≠ 0 := by
    have hmem := List.mem_range'_1.mp hi
    omega
  simp [hpos]

end Tally

namespace Layout

variable {l : Layout}

theorem exists_name {w : Wire} (h : w.index < l.inputCount) : ∃ name, l.name? w = some name := by
  rw [← length_inputNames] at h
  exact ⟨_, (l.name?_eq_getElem? w).trans (List.getElem?_eq_getElem h)⟩

/-- Inputs have one name each. -/
theorem map_some_filterMap_name? {ws : List Wire} (h : ∀ w ∈ ws, w.index < l.inputCount) :
    (ws.filterMap l.name?).map some = ws.map l.name? := by
  induction ws with
  | nil => rfl
  | cons w rest ih =>
      obtain ⟨hw, hrest⟩ := List.forall_mem_cons.mp h
      obtain ⟨name, hname⟩ := exists_name hw
      rw [List.filterMap_cons_some hname, List.map_cons, List.map_cons, ih hrest, hname]

end Layout

/-! ## Scans -/

namespace System

variable {F : Type} {s : System F} {t : Tally} {ws : List Wire}

/-- Wires that are noted are accounted for. -/
theorem accounts_of_noteAll (hs : s.hints.Valid s.layout) (ht : t.Accounts s.layout s.hints ws)
    {more : List Wire} {t' : Tally} (h : s.noteAll more t = .ok t') :
    t'.Accounts s.layout s.hints (ws ++ more) := by
  induction more generalizing t ws with
  | nil =>
      cases h
      rwa [List.append_nil]
  | cons w more ih =>
      rw [noteAll] at h
      cases hw : s.layout.check w with
      | error fault =>
          rw [hw] at h
          cases h
      | ok =>
          rw [hw] at h
          rw [← List.singleton_append, ← List.append_assoc]
          exact ih (ht.note hs w) h

/-- A scan accounts for all constraints, wherever it stops. -/
theorem accounts_of_scan (hs : s.hints.Valid s.layout) (ht : t.Accounts s.layout s.hints ws)
    {cs : List Constraint} {t' : Tally} (h : s.scan cs t = .ok t') :
    t'.Accounts s.layout s.hints (ws ++ cs.flatMap Constraint.nonzeroWires) := by
  induction cs generalizing t ws with
  | nil =>
      cases h
      rwa [List.flatMap_nil, List.append_nil]
  | cons c cs ih =>
      rw [scan] at h
      cases hnoted : s.noteAll c.nonzeroWires t with
      | error fault =>
          rw [hnoted] at h
          cases h
      | ok noted =>
          have haccounts := accounts_of_noteAll hs ht hnoted
          rw [hnoted] at h
          rw [List.flatMap_cons, ← List.append_assoc]
          -- a scan that stops here has nothing to learn from the other constraints
          cases hcomplete : noted.isComplete with
          | true =>
              simp only [hcomplete, if_true] at h
              cases h
              exact haccounts.of_isComplete hcomplete _
          | false =>
              simp only [hcomplete, Bool.false_eq_true, if_false] at h
              exact ih haccounts h

/-- Noting wires fails at the first that is not declared, and only there. -/
theorem noteAll_eq (s : System F) (more : List Wire) (t : Tally) :
    s.noteAll more t =
      match s.layout.firstUndeclared? more with
      | none => .ok (more.foldl (fun t w => t.note s.hints w) t)
      | some w => .error (.undeclaredWire w s.layout.wireCount) := by
  induction more generalizing t with
  | nil => rfl
  | cons w more ih =>
      rw [noteAll]
      by_cases hw : w.index < s.layout.wireCount
      · rw [Layout.check_eq_ok_iff.mpr hw, Layout.firstUndeclared?_cons_of_declared hw]
        exact ih (t.note s.hints w)
      · rw [Layout.check, if_neg hw, Layout.firstUndeclared?_cons_of_undeclared hw]

/-- A scan fails at a wire that is not declared, and only there. -/
theorem scan_eq_ok_or_error (s : System F) (cs : List Constraint) (t : Tally) :
    (∃ t', s.scan cs t = .ok t') ∨
      ∃ c ∈ cs, ∃ w ∈ c.nonzeroWires, s.layout.wireCount ≤ w.index ∧
        s.scan cs t = .error (.undeclaredWire w s.layout.wireCount) := by
  induction cs generalizing t with
  | nil => exact .inl ⟨t, rfl⟩
  | cons c cs ih =>
      rw [scan, noteAll_eq]
      cases hfirst : s.layout.firstUndeclared? c.nonzeroWires with
      | some w =>
          obtain ⟨hw, hle⟩ := Layout.undeclared_of_firstUndeclared? hfirst
          exact .inr ⟨c, List.mem_cons_self, w, hw, hle, rfl⟩
      | none =>
          simp only
          split
          · exact .inl ⟨_, rfl⟩
          · rcases ih _ with hok | ⟨d, hd, hfault⟩
            · exact .inl hok
            · exact .inr ⟨d, List.mem_cons_of_mem c hd, hfault⟩

/-! ## Full scans -/

/-- The wires of all terms with a coefficient other than `0`, constraint by constraint. -/
def constrainedWires (s : System F) : List Wire := s.constraints.flatMap Constraint.nonzeroWires

/-- The inputs besides the constant one that occur in no constraint, in order. -/
def freeInputs (s : System F) : List Wire :=
  s.layout.declaredInputs.filter fun w => w ∉ s.constrainedWires

/-- The outputs of registered hints that occur in no constraint. -/
def freeOutputs (s : System F) : Finset Wire :=
  (s.hints.hints.toList.flatMap Hint.outputs).toFinset.filter fun w => w ∉ s.constrainedWires

/-- The outputs that are left are counted once each, although several hints are registered. -/
theorem card_freeOutputs (hs : s.hints.Valid s.layout) :
    s.freeOutputs.card = s.hints.outputWires.countP fun w => w ∉ s.constrainedWires := by
  rw [List.countP_eq_length_filter,
    ← List.toFinset_card_of_nodup (s.hints.nodup_outputWires.filter _)]
  congr 1
  ext w
  simp [freeOutputs, hs.mem_outputWires_iff]

/-- A report turns a system down that has no inputs or an undeclared wire. All others are judged by
a tally that accounts for all constraints. -/
theorem reportCoverage_cases (hs : s.hints.Valid s.layout) :
    (s.layout.declaredInputs = [] ∧ s.reportCoverage = ⟨[], .error .noInputs⟩) ∨
    (s.layout.declaredInputs ≠ [] ∧
      ((∃ c ∈ s.constraints, ∃ w ∈ c.nonzeroWires, s.layout.wireCount ≤ w.index ∧
        s.reportCoverage = ⟨[], .error (.undeclaredWire w s.layout.wireCount)⟩) ∨
      ∃ t, t.Accounts s.layout s.hints s.constrainedWires ∧ s.reportCoverage = s.judge t)) := by
  have hleft : (Tally.start s.layout s.hints).inputsLeft = 0 ↔ s.layout.declaredInputs = [] :=
    Tally.inputsLeft_start_eq_zero_iff
  by_cases hnone : s.layout.declaredInputs = []
  · refine .inl ⟨hnone, ?_⟩
    simp only [reportCoverage, if_pos (hleft.mpr hnone)]
  · refine .inr ⟨hnone, ?_⟩
    have hstart := Tally.accounts_start s.layout s.hints
    simp only [reportCoverage, if_neg (mt hleft.mp hnone)]
    rcases s.scan_eq_ok_or_error s.constraints (Tally.start s.layout s.hints) with
      ⟨t, hscan⟩ | ⟨c, hc, w, hw, hle, hscan⟩
    · exact .inr ⟨t, accounts_of_scan hs hstart hscan, by rw [hscan]⟩
    · exact .inl ⟨c, hc, w, hw, hle, by rw [hscan]⟩

/-- Unless there are no inputs, a report is judged by a tally that accounts for all constraints. -/
theorem reportCoverage_eq_judge (hs : s.hints.Valid s.layout)
    (hdeclared : ∀ c ∈ s.constraints, ∀ w ∈ c.nonzeroWires, w.index < s.layout.wireCount)
    (hinputs : s.layout.declaredInputs ≠ []) :
    ∃ t, t.Accounts s.layout s.hints s.constrainedWires ∧ s.reportCoverage = s.judge t := by
  rcases reportCoverage_cases hs with ⟨hnone, -⟩ | ⟨-, ⟨c, hc, w, hw, hle, -⟩ | hjudged⟩
  · exact absurd hnone hinputs
  · exact absurd (hdeclared c hc w hw) (by omega)
  · exact hjudged

theorem warnings_judge_of_error {fault : Fault} (h : (s.judge t).verdict = .error fault) :
    (s.judge t).warnings = [] := by
  unfold judge at h ⊢
  by_cases hinputs : 0 < t.inputsLeft
  · rw [if_pos hinputs]
  · rw [if_neg hinputs] at h ⊢
    by_cases houtputs : 0 < t.outputsLeft
    · rw [if_pos houtputs] at h ⊢
      cases hpolicy : s.config.hintPolicy with
      | warn =>
          rw [hpolicy] at h
          cases h
      | deny => rfl
    · rw [if_neg houtputs]

/-- Nothing is warned of before a fault. -/
theorem warnings_eq_nil_of_error {fault : Fault} (h : s.reportCoverage.verdict = .error fault) :
    s.reportCoverage.warnings = [] := by
  unfold reportCoverage at h ⊢
  by_cases hnone : (Tally.start s.layout s.hints).inputsLeft = 0
  · simp only [if_pos hnone]
  · simp only [if_neg hnone] at h ⊢
    cases hscan : s.scan s.constraints (Tally.start s.layout s.hints) with
    | error fault => rfl
    | ok t =>
        rw [hscan] at h
        exact warnings_judge_of_error h

variable [Zero F] [One F] [Add F] [Neg F] [DecidableEq F]

/-- The report of a system that names declared wires only is that of a full scan. -/
theorem reportCoverage_full_scan (hs : s.Reachable)
    (hdeclared : ∀ c ∈ s.constraints, ∀ w ∈ c.nonzeroWires, w.index < s.layout.wireCount) :
    (s.layout.declaredInputs = [] → s.reportCoverage = ⟨[], .error .noInputs⟩) ∧
    (s.layout.declaredInputs ≠ [] → s.freeInputs ≠ [] →
      ∃ names, names.map some = s.freeInputs.map s.layout.name? ∧
        s.reportCoverage = ⟨[], .error (.unconstrainedInputs names)⟩) ∧
    (s.layout.declaredInputs ≠ [] → s.freeInputs = [] →
      (s.freeOutputs.card = 0 → s.reportCoverage = ⟨[], .ok ()⟩) ∧
      (0 < s.freeOutputs.card →
        (s.config.hintPolicy = .deny →
          s.reportCoverage = ⟨[], .error (.unconstrainedHints s.freeOutputs.card)⟩) ∧
        (s.config.hintPolicy = .warn →
          s.reportCoverage = ⟨[.unconstrainedHints s.freeOutputs.card], .ok ()⟩))) ∧
    ∀ fault, s.reportCoverage.verdict = .error fault → s.reportCoverage.warnings = [] := by
  have hvalid := valid_of_reachable hs
  have hjudged := reportCoverage_eq_judge hvalid hdeclared
  refine ⟨?_, ?_, ?_, fun fault => warnings_eq_nil_of_error⟩
  · intro hnone
    simp only [reportCoverage, if_pos (Tally.inputsLeft_start_eq_zero_iff.mpr hnone)]
  · intro hinputs hfree
    obtain ⟨t, ht, hreport⟩ := hjudged hinputs
    have hleft : 0 < t.inputsLeft := by
      rw [ht.inputs.left, List.countP_eq_length_filter]
      exact List.length_pos_iff.mpr hfree
    refine ⟨s.freeInputs.filterMap s.layout.name?, Layout.map_some_filterMap_name? ?_, ?_⟩
    · intro w hw
      exact (Layout.mem_declaredInputs.mp (List.mem_filter.mp hw).1).2
    · rw [hreport, judge, if_pos hleft, ht.inputs.namesLeft]
      rfl
  · intro hinputs hfree
    obtain ⟨t, ht, hreport⟩ := hjudged hinputs
    have hleft : t.inputsLeft = 0 := by
      rw [ht.inputs.left, List.countP_eq_length_filter]
      exact List.length_eq_zero_iff.mpr hfree
    have houtputs : t.outputsLeft = s.freeOutputs.card := by
      rw [ht.outputs.left, card_freeOutputs hvalid]
    rw [hreport, judge, if_neg (by omega), houtputs]
    refine ⟨?_, ?_⟩
    · intro hzero
      rw [if_neg (by omega)]
    · intro hpos
      rw [if_pos hpos]
      constructor <;> intro hpolicy <;> rw [hpolicy]

/-- Of the two outputs of a hint, one occurs in a term with the coefficient `0` only. -/
def halfReadRun : List (Call (Residue 17)) :=
  [.declarePublic "x", .declareSecret "x", .declareInternal, .declareInternal,
    .register ⟨⟨0⟩, [], [⟨3⟩, ⟨4⟩]⟩,
    .append ⟨⟨[⟨.one, ⟨1⟩⟩, ⟨.zero, ⟨4⟩⟩]⟩, ⟨[⟨.one, ⟨2⟩⟩]⟩, ⟨[⟨.one, ⟨3⟩⟩]⟩⟩ none]

theorem reportCoverage_half_read :
    ((empty {}).run halfReadRun).reportCoverage = ⟨[.unconstrainedHints 1], .ok ()⟩ := by
  have hwires : ((empty {}).run halfReadRun).constrainedWires = [⟨1⟩, ⟨2⟩, ⟨3⟩] := by decide
  have hinputs : ((empty {}).run halfReadRun).layout.declaredInputs = [⟨1⟩, ⟨2⟩] := by decide
  have hdeclared : ∀ c ∈ ((empty {}).run halfReadRun).constraints, ∀ w ∈ c.nonzeroWires,
      w.index < ((empty {}).run halfReadRun).layout.wireCount := by
    decide
  have hfree : ((empty {}).run halfReadRun).freeInputs = [] := by
    rw [freeInputs, hwires, hinputs]
    decide
  have hcard : ((empty {}).run halfReadRun).freeOutputs.card = 1 := by
    rw [freeOutputs, hwires]
    decide
  obtain ⟨-, -, houtputs, -⟩ :=
    reportCoverage_full_scan ((reachable_empty {}).run halfReadRun) hdeclared
  rw [((houtputs (by simp [hinputs]) hfree).2 (by omega)).2 rfl, hcard]

end System

end RankOne

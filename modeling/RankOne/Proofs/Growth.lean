import RankOne.Proofs.Gathering
import RankOne.System.Call

/-!
# What a call can change

Every call does one of few things to a system, or nothing when it is turned down
(`System.effect_of_call`): it declares a wire, interns a coefficient, registers a hint, stores a
constraint, or gives the next constraint its level. What all runs keep is read off these effects.
Declared wires keep their standing (`Layout.Extends`), registered hints stay at their places
(`System.extends_run`), and the registry says exactly which hint computes which internal wire
(`System.valid_of_reachable`).
-/

namespace RankOne

/-! ## Layouts -/

namespace Layout

/-- The wires of one layout are declared in another, as inputs or as internal wires as before. -/
structure Extends (l l' : Layout) : Prop where
  wireCount_le : l.wireCount ≤ l'.wireCount
  isInput_eq : ∀ w : Wire, w.index < l.wireCount → l'.isInput w = l.isInput w

theorem Extends.refl (l : Layout) : l.Extends l := ⟨Nat.le_refl _, fun _ _ => rfl⟩

theorem Extends.trans {l l' l'' : Layout} (h : l.Extends l') (h' : l'.Extends l'') :
    l.Extends l'' := by
  refine ⟨Nat.le_trans h.wireCount_le h'.wireCount_le, ?_⟩
  intro w hw
  rw [h'.isInput_eq w (Nat.lt_of_lt_of_le hw h.wireCount_le), h.isInput_eq w hw]

/-- As long as no wire is internal, a further input takes no wire's standing away. -/
theorem extends_of_no_internal {l l' : Layout} (hinternal : l.internalCount = 0)
    (hinternal' : l'.internalCount = 0) (hcount : l.inputCount ≤ l'.inputCount) :
    l.Extends l' := by
  refine ⟨?_, ?_⟩
  · unfold wireCount
    omega
  · intro w hw
    have hinput : w.index < l.inputCount := by
      unfold wireCount at hw
      omega
    rw [isInput_iff.mpr hinput, isInput_iff.mpr (Nat.lt_of_lt_of_le hinput hcount)]

theorem extends_of_declarePublic {l l' : Layout} {name : String} {w : Wire}
    (h : l.declarePublic name = .ok (w, l')) : l.Extends l' := by
  unfold declarePublic at h
  split at h
  · cases h
  · split at h
    · cases h
    · rename_i hinternal
      cases h
      refine extends_of_no_internal (by omega) (by show l.internalCount = 0; omega) ?_
      simp only [inputCount, publicCount, secretCount, Array.size_push]
      omega

theorem extends_of_declareSecret {l l' : Layout} {name : String} {w : Wire}
    (h : l.declareSecret name = .ok (w, l')) : l.Extends l' := by
  unfold declareSecret at h
  split at h
  · cases h
  · rename_i hinternal
    cases h
    refine extends_of_no_internal (by omega) (by show l.internalCount = 0; omega) ?_
    simp only [inputCount, publicCount, secretCount, Array.size_push]
    omega

theorem extends_declareInternal (l : Layout) : l.Extends l.declareInternal.2 := by
  refine ⟨?_, fun w _ => rfl⟩
  show l.inputCount + l.internalCount ≤ l.inputCount + (l.internalCount + 1)
  omega

/-- The first of some wires that is not declared. -/
def firstUndeclared? (l : Layout) (ws : List Wire) : Option Wire :=
  ws.find? fun w => l.wireCount ≤ w.index

theorem firstUndeclared?_eq_none_iff {l : Layout} {ws : List Wire} :
    l.firstUndeclared? ws = none ↔ ∀ w ∈ ws, w.index < l.wireCount := by
  simp [firstUndeclared?]

theorem firstUndeclared?_cons_of_declared {l : Layout} {w : Wire} (hw : w.index < l.wireCount)
    (ws : List Wire) : l.firstUndeclared? (w :: ws) = l.firstUndeclared? ws :=
  List.find?_cons_of_neg (by simpa using hw)

theorem firstUndeclared?_cons_of_undeclared {l : Layout} {w : Wire} (hw : ¬ w.index < l.wireCount)
    (ws : List Wire) : l.firstUndeclared? (w :: ws) = some w :=
  List.find?_cons_of_pos (by simpa using hw)

theorem undeclared_of_firstUndeclared? {l : Layout} {ws : List Wire} {w : Wire}
    (h : l.firstUndeclared? ws = some w) : w ∈ ws ∧ l.wireCount ≤ w.index := by
  have hle := List.find?_some h
  exact ⟨List.mem_of_find?_eq_some h, of_decide_eq_true hle⟩

theorem exists_firstUndeclared {l : Layout} {ws : List Wire}
    (h : ¬ ∀ w ∈ ws, w.index < l.wireCount) : ∃ w, l.firstUndeclared? ws = some w :=
  Option.ne_none_iff_exists'.mp (mt firstUndeclared?_eq_none_iff.mp h)

theorem firstUndeclared?_eq_some_iff {l : Layout} {ws : List Wire} {w : Wire} :
    l.firstUndeclared? ws = some w ↔
      ∃ before after, ws = before ++ w :: after ∧ (∀ u ∈ before, u.index < l.wireCount) ∧
        l.wireCount ≤ w.index := by
  rw [firstUndeclared?, List.find?_eq_some_iff_append]
  simp only [decide_eq_true_eq, Bool.not_eq_true', decide_eq_false_iff_not, Nat.not_le]
  constructor
  · rintro ⟨hw, before, after, hsplit, hbefore⟩
    exact ⟨before, after, hsplit, hbefore, hw⟩
  · rintro ⟨before, after, hsplit, hbefore, hw⟩
    exact ⟨hw, before, after, hsplit, hbefore⟩

theorem firstUndeclared?_append (l : Layout) (xs ys : List Wire) :
    l.firstUndeclared? (xs ++ ys) = (l.firstUndeclared? xs).or (l.firstUndeclared? ys) :=
  List.find?_append

/-- Checking wires one after another fails at the first that is not declared. -/
theorem forM_check (l : Layout) (ws : List Wire) :
    ws.forM l.check =
      match l.firstUndeclared? ws with
      | none => .ok ()
      | some w => .error (.undeclaredWire w l.wireCount) := by
  induction ws with
  | nil => rfl
  | cons w rest ih =>
      show (l.check w >>= fun _ => rest.forM l.check) = _
      by_cases hw : w.index < l.wireCount
      · rw [check_eq_ok_iff.mpr hw, firstUndeclared?_cons_of_declared hw]
        exact ih
      · rw [check, if_neg hw, firstUndeclared?_cons_of_undeclared hw]
        rfl

theorem forM_check_eq_ok_iff {l : Layout} {ws : List Wire} :
    ws.forM l.check = .ok () ↔ ∀ w ∈ ws, w.index < l.wireCount := by
  rw [← firstUndeclared?_eq_none_iff, forM_check]
  cases l.firstUndeclared? ws <;> simp

end Layout

/-! ## Hint registries -/

namespace HintRegistry

variable {r : HintRegistry} {l l' : Layout}

/-- The registry enters exactly the outputs of its hints, each under one hint, and these are
declared internal wires. -/
structure Valid (r : HintRegistry) (l : Layout) : Prop where
  place?_eq_some_iff : ∀ w i, r.place? w = some i ↔ ∃ h, r.hints[i]? = some h ∧ w ∈ h.outputs
  internal : ∀ w i, r.place? w = some i → w.index < l.wireCount ∧ l.isInput w = false

theorem valid_empty (l : Layout) : ({} : HintRegistry).Valid l := by
  have hnone : ∀ w, ({} : HintRegistry).place? w = none := WireMap.get?_empty
  refine ⟨?_, ?_⟩
  · intro w i
    rw [hnone]
    simp
  · intro w i h
    rw [hnone] at h
    cases h

/-- The hint that computes a wire is the one with the wire among its outputs. -/
theorem Valid.producer?_eq_some_iff_mem (hr : r.Valid l) {i : Nat} {h : Hint} {w : Wire} :
    r.producer? w = some (i, h) ↔ r.hints[i]? = some h ∧ w ∈ h.outputs := by
  rw [producer?_eq_some_iff, hr.place?_eq_some_iff]
  constructor
  · rintro ⟨⟨g, hgetg, hw⟩, hget⟩
    rw [hget] at hgetg
    cases hgetg
    exact ⟨hget, hw⟩
  · rintro ⟨hget, hw⟩
    exact ⟨⟨h, hget, hw⟩, hget⟩

/-- No two hints compute the same wire. -/
theorem Valid.place_unique (hr : r.Valid l) {i j : Nat} {g h : Hint} {w : Wire}
    (hg : r.hints[i]? = some g) (hh : r.hints[j]? = some h) (hwg : w ∈ g.outputs)
    (hwh : w ∈ h.outputs) : i = j := by
  have hi := (hr.place?_eq_some_iff w i).mpr ⟨g, hg, hwg⟩
  rw [(hr.place?_eq_some_iff w j).mpr ⟨h, hh, hwh⟩] at hi
  exact (Option.some.inj hi).symm

theorem Valid.internal_of_mem (hr : r.Valid l) {i : Nat} {h : Hint} {w : Wire}
    (hget : r.hints[i]? = some h) (hw : w ∈ h.outputs) :
    w.index < l.wireCount ∧ l.isInput w = false :=
  hr.internal w i ((hr.place?_eq_some_iff w i).mpr ⟨h, hget, hw⟩)

theorem Valid.mono (hr : r.Valid l) (hl : l.Extends l') : r.Valid l' := by
  refine ⟨hr.place?_eq_some_iff, ?_⟩
  intro w i h
  obtain ⟨hdeclared, hinternal⟩ := hr.internal w i h
  exact ⟨Nat.lt_of_lt_of_le hdeclared hl.wireCount_le, by rw [hl.isInput_eq w hdeclared, hinternal]⟩

/-- An output is accepted if it is a declared internal wire that no hint computes yet and that was
not among the outputs before it. -/
theorem checkOutputs_cons_eq_ok_iff {earlier rest : List Wire} {w : Wire} :
    r.checkOutputs l earlier (w :: rest) = .ok () ↔
      (w.index < l.wireCount ∧ l.isInput w = false ∧ r.place? w = none ∧ w ∉ earlier) ∧
        r.checkOutputs l (w :: earlier) rest = .ok () := by
  rw [checkOutputs]
  by_cases hdeclared : w.index < l.wireCount
  · rw [Layout.check_eq_ok_iff.mpr hdeclared]
    cases hinput : l.isInput w with
    | true => simp
    | false =>
        cases hplace : r.place? w with
        | some i => simp
        | none => by_cases hearlier : w ∈ earlier <;> simp [hearlier, hdeclared]
  · simp [Layout.check, hdeclared]

/-- Outputs are accepted if each is and none of them is repeated. -/
theorem checkOutputs_eq_ok_iff {earlier outputs : List Wire} :
    r.checkOutputs l earlier outputs = .ok () ↔
      outputs.Nodup ∧ ∀ w ∈ outputs, w.index < l.wireCount ∧ l.isInput w = false ∧
        r.place? w = none ∧ w ∉ earlier := by
  -- the outputs that were looked at before grow on the way, so they are any list
  induction outputs generalizing earlier with
  | nil => simp [checkOutputs]
  | cons v rest ih =>
      rw [checkOutputs_cons_eq_ok_iff, ih, List.nodup_cons, List.forall_mem_cons]
      constructor
      · rintro ⟨hv, hnodup, hrest⟩
        refine ⟨⟨fun hmem => (hrest v hmem).2.2.2 List.mem_cons_self, hnodup⟩, hv, ?_⟩
        intro w hw
        obtain ⟨hdeclared, hinternal, hplace, hearlier⟩ := hrest w hw
        exact ⟨hdeclared, hinternal, hplace, fun hmem => hearlier (List.mem_cons_of_mem _ hmem)⟩
      · rintro ⟨⟨hnew, hnodup⟩, hv, hrest⟩
        refine ⟨hv, hnodup, fun w hw => ?_⟩
        obtain ⟨hdeclared, hinternal, hplace, hearlier⟩ := hrest w hw
        refine ⟨hdeclared, hinternal, hplace, ?_⟩
        rintro (_ | ⟨_, hmem⟩)
        · exact hnew hw
        · exact hearlier hmem

/-- A hint is accepted if its arguments are declared and its outputs are accepted. -/
theorem check_eq_ok_iff {h : Hint} :
    r.check l h = .ok () ↔
      (∀ w ∈ h.inputWires, w.index < l.wireCount) ∧ h.outputs.Nodup ∧
        ∀ w ∈ h.outputs, w.index < l.wireCount ∧ l.isInput w = false ∧ r.place? w = none := by
  have houtputs : r.checkOutputs l [] h.outputs = .ok () ↔ _ := checkOutputs_eq_ok_iff
  simp only [List.not_mem_nil, not_false_eq_true, and_true] at houtputs
  rw [← houtputs, ← Layout.forM_check_eq_ok_iff, check]
  cases h.inputWires.forM l.check with
  | error fault => simp
  | ok u => simp

theorem Valid.push {h : Hint} (hr : r.Valid l) (hcheck : r.check l h = .ok ()) :
    (r.push h).Valid l := by
  have hnew := (check_eq_ok_iff.mp hcheck).2.2
  refine ⟨?_, ?_⟩
  · intro w i
    rw [place?_push, getElem?_hints_push]
    by_cases hw : w ∈ h.outputs
    · rw [if_pos hw, Option.some.injEq]
      constructor
      · rintro rfl
        exact ⟨h, by rw [if_pos rfl], hw⟩
      · rintro ⟨g, hget, hg⟩
        by_cases hi : i = r.hints.size
        · exact hi.symm
        · -- an older hint would compute the wire already
          rw [if_neg hi] at hget
          have hold := (hr.place?_eq_some_iff w i).mpr ⟨g, hget, hg⟩
          rw [(hnew w hw).2.2] at hold
          cases hold
    · rw [if_neg hw, hr.place?_eq_some_iff]
      constructor
      · rintro ⟨g, hget, hg⟩
        have hi : i ≠ r.hints.size := by
          rintro rfl
          simp at hget
        exact ⟨g, by rw [if_neg hi, hget], hg⟩
      · rintro ⟨g, hget, hg⟩
        by_cases hi : i = r.hints.size
        · rw [if_pos hi] at hget
          cases hget
          exact absurd hg hw
        · exact ⟨g, by rw [if_neg hi] at hget; exact hget, hg⟩
  · intro w i hplace
    rw [place?_push] at hplace
    by_cases hw : w ∈ h.outputs
    · exact ⟨(hnew w hw).1, (hnew w hw).2.1⟩
    · rw [if_neg hw] at hplace
      exact hr.internal w i hplace

end HintRegistry

/-! ## Effects -/

/-- What is recorded of a sweep over the reads of a constraint. -/
def Sweep.leveled (v : Sweep) (cid : Nat) (reads : List Wire) : Leveled :=
  ⟨cid, v.level, reads, v.outputs, v.expanded⟩

namespace System

variable {F : Type}

/-- What a call can do to a system: the levelings that it decides, and the system after it. -/
inductive Effect (s : System F) (c : Call F) : List Leveled → System F → Prop
  | nothing : Effect s c [] s
  | declared {l : Layout} : s.layout.Extends l → Effect s c [] { s with layout := l }
  | interned {coeffs : CoeffTable F} : Effect s c [] { s with coeffs := coeffs }
  | registered {h : Hint} : c = .register h → s.hints.check s.layout h = .ok () →
      Effect s c [] { s with hints := s.hints.push h }
  | stored {e : Entry} : Effect s c [] { s with entries := s.entries.push e }
  | leveled {entries : Array Entry} {reads : List Wire} {v : Sweep} :
      (entries = s.entries ∨ ∃ e, entries = s.entries.push e) →
      s.schedule.leveledCount < entries.size → s.sweep reads = .ok v →
      Effect s c [v.leveled s.schedule.leveledCount reads]
        { s with
          entries := entries
          schedule := s.schedule.record (v.leveled s.schedule.leveledCount reads) }

/-- One system has what another has: its wires as they are, and its hints at their places. -/
structure Extends (s t : System F) : Prop where
  layout : s.layout.Extends t.layout
  hints : ∀ (i : Nat) (h : Hint), s.hints.hints[i]? = some h → t.hints.hints[i]? = some h

theorem Effect.extends {s t : System F} {c : Call F} {ds : List Leveled} (h : s.Effect c ds t) :
    s.Extends t := by
  cases h with
  | nothing => exact ⟨.refl _, fun _ _ h => h⟩
  | declared hl => exact ⟨hl, fun _ _ h => h⟩
  | interned => exact ⟨.refl _, fun _ _ h => h⟩
  | stored => exact ⟨.refl _, fun _ _ h => h⟩
  | leveled => exact ⟨.refl _, fun _ _ h => h⟩
  | registered hc hcheck =>
      refine ⟨.refl _, ?_⟩
      -- the new hint takes a place that none had before
      intro i g hget
      rw [HintRegistry.getElem?_hints_push, if_neg, hget]
      rintro rfl
      simp at hget

theorem Effect.valid {s t : System F} {c : Call F} {ds : List Leveled} (h : s.Effect c ds t)
    (hs : s.hints.Valid s.layout) : t.hints.Valid t.layout := by
  cases h with
  | nothing => exact hs
  | declared hl => exact hs.mono hl
  | interned => exact hs
  | stored => exact hs
  | leveled => exact hs
  | registered hc hcheck => exact hs.push hcheck

/-! ## Effects of calls -/

/-- A declaration is turned down and changes nothing, or it changes the layout. -/
theorem declare_cases (s : System F) (result : Except Fault (Wire × Layout)) :
    (∃ fault, result = .error fault ∧ s.declare result = (.error fault, s)) ∨
      ∃ w l, result = .ok (w, l) ∧ s.declare result = (.ok w, { s with layout := l }) := by
  cases result with
  | error fault => exact .inl ⟨fault, rfl, rfl⟩
  | ok wl => exact .inr ⟨wl.1, wl.2, rfl, rfl⟩

theorem entries_declare (s : System F) (result : Except Fault (Wire × Layout)) :
    (s.declare result).2.entries = s.entries := by
  cases result <;> rfl

theorem schedule_declare (s : System F) (result : Except Fault (Wire × Layout)) :
    (s.declare result).2.schedule = s.schedule := by
  cases result <;> rfl

theorem declare_of_error {s : System F} {result : Except Fault (Wire × Layout)} {fault : Fault}
    (h : (s.declare result).1 = .error fault) : (s.declare result).2 = s := by
  rcases s.declare_cases result with ⟨_, -, hdeclare⟩ | ⟨w, l, -, hdeclare⟩
  · rw [hdeclare]
  · rw [hdeclare] at h
    cases h

/-- A hint is turned down and changes nothing, or it is entered under the next place. -/
theorem register_cases (s : System F) (h : Hint) :
    (∃ fault, s.hints.check s.layout h = .error fault ∧ s.register h = (.error fault, s)) ∨
      s.hints.check s.layout h = .ok () ∧
        s.register h = (.ok s.hints.hints.size, { s with hints := s.hints.push h }) := by
  unfold register HintRegistry.register
  cases s.hints.check s.layout h with
  | error fault => exact .inl ⟨fault, rfl, rfl⟩
  | ok u => exact .inr ⟨rfl, rfl⟩

/-- A hint that is accepted takes the next place, and nothing else changes. -/
theorem register_eq_ok_iff {s t : System F} {h : Hint} {i : Nat} :
    s.register h = (.ok i, t) ↔
      s.hints.check s.layout h = .ok () ∧ i = s.hints.hints.size ∧
        t = { s with hints := s.hints.push h } := by
  rcases s.register_cases h with ⟨fault, hcheck, hregister⟩ | ⟨hcheck, hregister⟩
  · simp [hcheck, hregister]
  · simp [hcheck, hregister, eq_comm]

theorem register_of_error {s : System F} {h : Hint} {fault : Fault}
    (herror : (s.register h).1 = .error fault) : (s.register h).2 = s := by
  rcases s.register_cases h with ⟨_, -, hregister⟩ | ⟨-, hregister⟩
  · rw [hregister]
  · rw [hregister] at herror
    cases herror

/-- A leveling is turned down and changes nothing, or the constraint is the next one, it is stored,
and what the sweep over its reads has gathered is recorded. -/
theorem level_cases (s : System F) (cid : Nat) (reads : List Wire) :
    (∃ fault, s.level cid reads = (.error fault, s)) ∨
      cid = s.schedule.leveledCount ∧ cid < s.entries.size ∧ ∃ v, s.sweep reads = .ok v ∧
        s.level cid reads = (.ok (v.leveled cid reads),
          { s with schedule := s.schedule.record (v.leveled cid reads) }) := by
  unfold level
  by_cases hnext : cid = s.schedule.leveledCount
  · by_cases hstored : cid < s.entries.size
    · rw [if_neg (by simpa using hnext), if_neg (by omega)]
      cases hsweep : s.sweep reads with
      | error fault => exact .inl ⟨fault, rfl⟩
      | ok v => exact .inr ⟨hnext, hstored, v, rfl, rfl⟩
    · rw [if_neg (by simpa using hnext), if_pos (by omega)]
      exact .inl ⟨_, rfl⟩
  · rw [if_pos hnext]
    exact .inl ⟨_, rfl⟩

theorem level_of_error {s : System F} {cid : Nat} {reads : List Wire} {fault : Fault}
    (h : (s.level cid reads).1 = .error fault) : (s.level cid reads).2 = s := by
  rcases s.level_cases cid reads with ⟨_, hlevel⟩ | ⟨-, -, v, -, hlevel⟩
  · rw [hlevel]
  · rw [hlevel] at h
    cases h

/-- The next constraint gets its level if it is stored and the sweep comes to its end. -/
theorem level_of_sweep {s : System F} {cid : Nat} {reads : List Wire} {v : Sweep}
    (hnext : cid = s.schedule.leveledCount) (hstored : cid < s.entries.size)
    (hsweep : s.sweep reads = .ok v) :
    s.level cid reads = (.ok (v.leveled cid reads),
      { s with schedule := s.schedule.record (v.leveled cid reads) }) := by
  rw [level, if_neg (by simpa using hnext), if_neg (by omega), hsweep]
  rfl

/-- The next constraint is leveled if it is stored and the sweep over its reads comes to its end. -/
theorem level_eq_ok_iff {s t : System F} {cid : Nat} {reads : List Wire} {d : Leveled} :
    s.level cid reads = (.ok d, t) ↔
      cid = s.schedule.leveledCount ∧ cid < s.entries.size ∧
      ∃ v, s.sweep reads = .ok v ∧ d = v.leveled cid reads ∧
        t = { s with schedule := s.schedule.record d } := by
  constructor
  · intro hok
    rcases s.level_cases cid reads with ⟨fault, hlevel⟩ | ⟨hnext, hstored, v, hsweep, hlevel⟩
    · rw [hlevel] at hok
      cases hok
    · rw [hlevel] at hok
      cases hok
      exact ⟨hnext, hstored, v, hsweep, rfl, rfl⟩
  · rintro ⟨hnext, hstored, v, hsweep, rfl, rfl⟩
    exact level_of_sweep hnext hstored hsweep

/-- Stored constraints have no say in a sweep. -/
theorem sweep_entries (s : System F) (entries : Array Entry) (reads : List Wire) :
    ({ s with entries := entries } : System F).sweep reads = s.sweep reads :=
  sweep_congr fun _ _ => rfl

theorem sweep_append (s : System F) (c : Constraint) (source : Option Provenance)
    (reads : List Wire) : (s.append c source).2.sweep reads = s.sweep reads :=
  s.sweep_entries _ reads

/-- A constraint with declared wires is stored, and then leveled. -/
theorem appendLeveled_of_declared {s : System F} {c : Constraint} (source : Option Provenance)
    (h : ∀ w ∈ c.wires, w.index < s.layout.wireCount) :
    s.appendLeveled c source = (s.append c source).2.level s.entries.size c.wires := by
  unfold appendLeveled
  rw [Layout.forM_check_eq_ok_iff.mpr h]
  rfl

/-- A constraint with an undeclared wire changes nothing. The first of these wires is named. -/
theorem appendLeveled_of_undeclared {s : System F} {c : Constraint} {w : Wire}
    (source : Option Provenance) (h : s.layout.firstUndeclared? c.wires = some w) :
    s.appendLeveled c source = (.error (.undeclaredWire w s.layout.wireCount), s) := by
  unfold appendLeveled
  rw [Layout.forM_check, h]

/-- It is leveled if no stored constraint waits for a level and the sweep comes to its end. -/
theorem appendLeveled_eq_ok_iff {s t : System F} {c : Constraint} {source : Option Provenance}
    {d : Leveled} :
    s.appendLeveled c source = (.ok d, t) ↔
      (∀ w ∈ c.wires, w.index < s.layout.wireCount) ∧
      s.entries.size = s.schedule.leveledCount ∧
      ∃ v, s.sweep c.wires = .ok v ∧ d = v.leveled s.entries.size c.wires ∧
        t = { s with
          entries := s.entries.push ⟨c, source⟩
          schedule := s.schedule.record d } := by
  by_cases hwires : ∀ w ∈ c.wires, w.index < s.layout.wireCount
  · rw [appendLeveled_of_declared source hwires, level_eq_ok_iff, sweep_append,
      show (s.append c source).2.entries.size = s.entries.size + 1 from Array.size_push _,
      and_iff_right (Nat.lt_succ_self _), and_iff_right hwires]
    rfl
  · obtain ⟨w, hw⟩ := Layout.exists_firstUndeclared hwires
    rw [appendLeveled_of_undeclared source hw]
    simp [hwires]

variable [Zero F] [One F] [Add F] [Neg F] [DecidableEq F]

/-- The leveling that a call decides, if it does. -/
def decision (s : System F) (c : Call F) : Option Leveled := leveling? (s.call c).1

theorem effect_of_outcome {s t : System F} {c : Call F} {answer : Except Fault Answer}
    (hcall : s.call c = (answer, t)) (heffect : s.Effect c (leveling? answer).toList t) :
    s.Effect c (s.decision c).toList (s.call c).2 := by
  rw [decision, hcall]
  exact heffect

theorem effect_of_declare {s : System F} {c : Call F} {result : Except Fault (Wire × Layout)}
    (hcall : s.call c = reply .wire (s.declare result))
    (hextends : ∀ w l, result = .ok (w, l) → s.layout.Extends l) :
    s.Effect c (s.decision c).toList (s.call c).2 := by
  rcases s.declare_cases result with ⟨fault, -, h⟩ | ⟨w, l, hlayout, h⟩
  · exact effect_of_outcome (hcall.trans (congrArg (reply .wire) h)) .nothing
  · exact effect_of_outcome (hcall.trans (congrArg (reply .wire) h))
      (.declared (hextends w l hlayout))

/-- Every call has one of the effects. -/
theorem effect_of_call (s : System F) (c : Call F) :
    s.Effect c (s.decision c).toList (s.call c).2 := by
  cases c with
  | declarePublic name => exact effect_of_declare rfl fun _ _ => Layout.extends_of_declarePublic
  | declareSecret name => exact effect_of_declare rfl fun _ _ => Layout.extends_of_declareSecret
  | declareInternal => exact .declared (Layout.extends_declareInternal s.layout)
  | intern value => exact .interned
  | term value wire => exact .interned
  | register hint =>
      rcases s.register_cases hint with ⟨fault, -, h⟩ | ⟨hcheck, h⟩
      · exact effect_of_outcome (congrArg (reply .hint) h) .nothing
      · exact effect_of_outcome (congrArg (reply .hint) h) (.registered rfl hcheck)
  | append constraint source => exact .stored
  | appendLeveled constraint source =>
      by_cases hwires : ∀ w ∈ constraint.wires, w.index < s.layout.wireCount
      · have happend := appendLeveled_of_declared source hwires
        rcases (s.append constraint source).2.level_cases s.entries.size constraint.wires with
          ⟨fault, h⟩ | ⟨hlast, hstored, v, hsweep, h⟩
        · -- the constraint is stored although it has to wait for its level
          exact effect_of_outcome (congrArg (reply .leveled) (happend.trans h)) .stored
        · replace hlast : s.entries.size = s.schedule.leveledCount := hlast
          rw [sweep_append] at hsweep
          rw [hlast] at hstored h happend
          exact effect_of_outcome (congrArg (reply .leveled) (happend.trans h))
            (.leveled (.inr ⟨_, rfl⟩) hstored hsweep)
      · obtain ⟨w, hw⟩ := Layout.exists_firstUndeclared hwires
        have happend := appendLeveled_of_undeclared source hw
        exact effect_of_outcome (congrArg (reply .leveled) happend) .nothing
  | level cid reads =>
      rcases s.level_cases cid reads with ⟨fault, h⟩ | ⟨rfl, hstored, v, hsweep, h⟩
      · exact effect_of_outcome (congrArg (reply .leveled) h) .nothing
      · exact effect_of_outcome (congrArg (reply .leveled) h) (.leveled (.inl rfl) hstored hsweep)

/-! ## What runs keep -/

/-- What calls add takes nothing away. -/
theorem extends_run (s : System F) (calls : List (Call F)) : s.Extends (s.run calls) := by
  induction calls generalizing s with
  | nil => exact ⟨.refl _, fun _ _ h => h⟩
  | cons c rest ih =>
      have hcall := (s.effect_of_call c).extends
      have hrest := ih (s.call c).2
      refine ⟨hcall.layout.trans hrest.layout, ?_⟩
      exact fun i h hget => hrest.hints i h (hcall.hints i h hget)

theorem valid_run {s : System F} (hs : s.hints.Valid s.layout) (calls : List (Call F)) :
    (s.run calls).hints.Valid (s.run calls).layout := by
  induction calls generalizing s with
  | nil => exact hs
  | cons c rest ih => exact ih ((s.effect_of_call c).valid hs)

/-- In every reachable system the registry says exactly which hint computes which wire. -/
theorem valid_of_reachable {s : System F} (h : s.Reachable) : s.hints.Valid s.layout := by
  obtain ⟨config, calls, rfl⟩ := h
  exact valid_run (HintRegistry.valid_empty _) calls

end System

end RankOne

import Mathlib.Data.List.Nodup
import RankOne.System.Sweep

/-!
# What a sweep gathers

The wires that a leveling looks at are a least closed set (`System.LeadsTo`): the wires it is said
to read, and the arguments of each hint that one of them stands for. A sweep that comes to its end
has met exactly these: `System.gathers_of_sweep` says what its level, its outputs and its hints are
in terms of them. It depends on the system only through their roles (`System.sweep_congr`).
-/

namespace RankOne

namespace System

variable {F : Type} {s t : System F} {reads : List Wire}

/-! ## Roles -/

/-- What a role says about a declared wire. -/
def Standing (s : System F) (w : Wire) : Role → Prop
  | .known => s.layout.isInput w = true
  | .produced level => s.layout.isInput w = false ∧ s.schedule.wireLevel? w = some level
  | .hinted i h => s.layout.isInput w = false ∧ s.schedule.wireLevel? w = none ∧
      s.hints.producer? w = some (i, h)
  | .free => s.layout.isInput w = false ∧ s.schedule.wireLevel? w = none ∧
      s.hints.producer? w = none

/-- Exactly the declared wires have a role, and it is the one that they stand in. -/
theorem role_eq_ok_iff {w : Wire} {r : Role} :
    s.role w = .ok r ↔ w.index < s.layout.wireCount ∧ s.Standing w r := by
  by_cases hdeclared : w.index < s.layout.wireCount
  · have hcheck : s.layout.check w = .ok () := Layout.check_eq_ok_iff.mpr hdeclared
    cases hinput : s.layout.isInput w with
    | true => cases r <;> simp [role, Standing, hcheck, hinput, hdeclared]
    | false =>
        cases hlevel : s.schedule.wireLevel? w with
        | some l => cases r <;> simp [role, Standing, hcheck, hinput, hdeclared, hlevel]
        | none =>
            cases hproducer : s.hints.producer? w <;> cases r <;>
              simp [role, Standing, hcheck, hinput, hdeclared, hlevel, hproducer, Prod.ext_iff]
  · simp [role, Layout.check, hdeclared]

theorem standing_of_role {w : Wire} {r : Role} (h : s.role w = .ok r) : s.Standing w r :=
  (role_eq_ok_iff.mp h).2

/-- The hint that a wire stands for is the registered one at its place. -/
theorem getElem?_hints_of_role {w : Wire} {i : Nat} {h : Hint}
    (hrole : s.role w = .ok (.hinted i h)) : s.hints.hints[i]? = some h :=
  (HintRegistry.producer?_eq_some_iff.mp (standing_of_role hrole).2.2).2

/-! ## The wires that reads lead to -/

/-- The wires that a leveling looks at: those it is said to read, and the arguments of each hint
that one of them stands for. -/
inductive LeadsTo (s : System F) (reads : List Wire) : Wire → Prop
  | read {w} : w ∈ reads → LeadsTo s reads w
  | argument {w i h v} : LeadsTo s reads w → s.role w = .ok (.hinted i h) → v ∈ h.inputWires →
      LeadsTo s reads v

end System

namespace Sweep

variable {F : Type} {s : System F} {reads : List Wire} {v v' : Sweep}

/-! ## Meeting a wire -/

/-- A sweep has met a wire if it holds what the role of the wire asks for. -/
def Met (s : System F) (v : Sweep) (w : Wire) : Prop :=
  match s.role w with
  -- an undeclared wire stops a sweep, so none that comes to its end has met one
  | .error _ => False
  | .ok .known => True
  | .ok (.produced level) => level < v.level
  | .ok (.hinted i _) => i ∈ v.expanded
  | .ok .free => w ∈ v.outputs

/-- One sweep holds all that another does. -/
structure Within (v v' : Sweep) : Prop where
  level : v.level ≤ v'.level
  outputs : ∀ w ∈ v.outputs, w ∈ v'.outputs
  expanded : ∀ i ∈ v.expanded, i ∈ v'.expanded

theorem Met.mono {w : Wire} (h : v.Met s w) (hle : v.Within v') : v'.Met s w := by
  unfold Met at h ⊢
  split at h
  · exact h
  · trivial
  · exact Nat.lt_of_lt_of_le h hle.level
  · exact hle.expanded _ h
  · exact hle.outputs _ h

theorem mem_foldl_insert {ws outputs : List Wire} {u : Wire} :
    u ∈ ws.foldl (fun outputs w => outputs.insert w) outputs ↔ u ∈ ws ∨ u ∈ outputs := by
  induction ws generalizing outputs with
  | nil => simp
  | cons w ws ih =>
      rw [List.foldl_cons, ih, List.mem_insert_iff, List.mem_cons]
      tauto

theorem nodup_foldl_insert {ws outputs : List Wire} (h : outputs.Nodup) :
    (ws.foldl (fun outputs w => outputs.insert w) outputs).Nodup := by
  induction ws generalizing outputs with
  | nil => exact h
  | cons w ws ih => exact ih (List.Nodup.insert h)

/-- The turn in which a hint is expanded, and the turns in which its other outputs are met. -/
theorem meet_hinted (w : Wire) (i : Nat) (h : Hint) :
    (i ∈ v.expanded ∧ v.meet w (.hinted i h) = v) ∨
    (i ∉ v.expanded ∧ v.meet w (.hinted i h) =
      { v with
        pending := h.inputWires.reverse ++ v.pending
        outputs := h.outputs.foldl (fun outputs w => outputs.insert w) v.outputs
        expanded := i :: v.expanded }) := by
  by_cases hold : i ∈ v.expanded
  · exact .inl ⟨hold, by simp only [meet, if_pos hold]⟩
  · exact .inr ⟨hold, by simp only [meet, if_neg hold]⟩

theorem within_meet (w : Wire) (r : Role) : v.Within (v.meet w r) := by
  cases r with
  | known => exact ⟨Nat.le_refl _, fun _ h => h, fun _ h => h⟩
  | produced level => exact ⟨Nat.le_max_left _ _, fun _ h => h, fun _ h => h⟩
  | free => exact ⟨Nat.le_refl _, fun _ h => List.mem_insert_of_mem h, fun _ h => h⟩
  | hinted i h =>
      rcases meet_hinted (v := v) w i h with ⟨-, heq⟩ | ⟨-, heq⟩ <;> rw [heq]
      · exact ⟨Nat.le_refl _, fun _ h => h, fun _ h => h⟩
      · exact ⟨Nat.le_refl _, fun _ h => mem_foldl_insert.mpr (.inr h),
          fun _ h => List.mem_cons_of_mem _ h⟩

theorem met_meet {w : Wire} {r : Role} (hrole : s.role w = .ok r) : (v.meet w r).Met s w := by
  unfold Met
  rw [hrole]
  cases r with
  | known => trivial
  | produced level => exact Nat.lt_of_lt_of_le (Nat.lt_succ_self _) (Nat.le_max_right _ _)
  | free => exact List.mem_insert_self
  | hinted i h =>
      rcases meet_hinted (v := v) w i h with ⟨hold, heq⟩ | ⟨-, heq⟩ <;> rw [heq]
      · exact hold
      · exact List.mem_cons_self

/-- What waits after a wire is met waited before, or is an argument of the hint it stands for. -/
theorem mem_pending_meet {w u : Wire} {r : Role} (h : u ∈ (v.meet w r).pending) :
    u ∈ v.pending ∨ ∃ i hint, r = .hinted i hint ∧ u ∈ hint.inputWires := by
  cases r with
  | known => exact .inl h
  | produced level => exact .inl h
  | free => exact .inl h
  | hinted i hint =>
      rcases meet_hinted (v := v) w i hint with ⟨-, heq⟩ | ⟨-, heq⟩ <;> rw [heq] at h
      · exact .inl h
      · rcases List.mem_append.mp h with h | h
        · exact .inr ⟨i, hint, rfl, List.mem_reverse.mp h⟩
        · exact .inl h

theorem mem_pending_meet_of_mem {w u : Wire} {r : Role} (h : u ∈ v.pending) :
    u ∈ (v.meet w r).pending := by
  cases r with
  | known => exact h
  | produced level => exact h
  | free => exact h
  | hinted i hint =>
      rcases meet_hinted (v := v) w i hint with ⟨-, heq⟩ | ⟨-, heq⟩ <;> rw [heq]
      · exact h
      · exact List.mem_append_right _ h

/-- A hint that is expanded was so before, or its arguments wait from this turn on. -/
theorem mem_expanded_meet {w : Wire} {r : Role} {i : Nat} (h : i ∈ (v.meet w r).expanded) :
    i ∈ v.expanded ∨
      ∃ hint, r = .hinted i hint ∧ ∀ u ∈ hint.inputWires, u ∈ (v.meet w r).pending := by
  cases r with
  | known => exact .inl h
  | produced level => exact .inl h
  | free => exact .inl h
  | hinted j hint =>
      rcases meet_hinted (v := v) w j hint with ⟨-, heq⟩ | ⟨-, heq⟩
      · rw [heq] at h
        exact .inl h
      · rw [heq] at h ⊢
        rcases List.mem_cons.mp h with rfl | hold
        · exact .inr ⟨hint, rfl, fun u hu => List.mem_append_left _ (List.mem_reverse.mpr hu)⟩
        · exact .inl hold

/-! ## The invariant of a sweep -/

/-- What has been gathered comes from the wires that the reads lead to. -/
structure Sound (s : System F) (reads : List Wire) (v : Sweep) : Prop where
  level : v.level = 0 ∨ ∃ w l, s.LeadsTo reads w ∧ s.role w = .ok (.produced l) ∧ v.level = l + 1
  expanded : ∀ i ∈ v.expanded, ∃ w h, s.LeadsTo reads w ∧ s.role w = .ok (.hinted i h)
  outputs : ∀ u ∈ v.outputs, (s.LeadsTo reads u ∧ s.role u = .ok .free) ∨
    ∃ i ∈ v.expanded, ∃ h, s.hints.hints[i]? = some h ∧ u ∈ h.outputs
  hint_outputs : ∀ i ∈ v.expanded, ∀ h, s.hints.hints[i]? = some h → ∀ u ∈ h.outputs, u ∈ v.outputs
  nodup : v.outputs.Nodup

/-- A sweep on its way: what waits is led to, and what is led to in one step waits or is met. -/
structure OnTheWay (s : System F) (reads : List Wire) (v : Sweep) : Prop where
  sound : v.Sound s reads
  pending : ∀ w ∈ v.pending, s.LeadsTo reads w
  reads : ∀ w ∈ reads, w ∈ v.pending ∨ v.Met s w
  arguments : ∀ i ∈ v.expanded, ∀ h, s.hints.hints[i]? = some h →
    ∀ u ∈ h.inputWires, u ∈ v.pending ∨ v.Met s u

theorem onTheWay_start : (start reads).OnTheWay s reads where
  sound := {
    level := .inl rfl
    expanded := fun _ h => absurd h List.not_mem_nil
    outputs := fun _ h => absurd h List.not_mem_nil
    hint_outputs := fun _ h => absurd h List.not_mem_nil
    nodup := List.nodup_nil }
  pending := fun _ h => .read (List.mem_reverse.mp h)
  reads := fun _ h => .inl (List.mem_reverse.mpr h)
  arguments := fun _ h => absurd h List.not_mem_nil

theorem Sound.meet {w : Wire} {r : Role} (hv : v.Sound s reads) (hw : s.LeadsTo reads w)
    (hr : s.role w = .ok r) : (v.meet w r).Sound s reads := by
  cases r with
  | known => exact hv
  | produced l =>
      refine { hv with level := ?_ }
      show max v.level (l + 1) = 0 ∨ _
      rcases Nat.le_total v.level (l + 1) with hle | hle
      · exact .inr ⟨w, l, hw, hr, Nat.max_eq_right hle⟩
      · show max v.level (l + 1) = 0 ∨ ∃ w k, _ ∧ _ ∧ max v.level (l + 1) = k + 1
        rw [Nat.max_eq_left hle]
        exact hv.level
  | free =>
      refine { hv with outputs := ?_, hint_outputs := ?_, nodup := List.Nodup.insert hv.nodup }
      · intro u hu
        rcases List.mem_insert_iff.mp hu with rfl | hold
        · exact .inl ⟨hw, hr⟩
        · exact hv.outputs u hold
      · intro i hi h hget u hu
        exact List.mem_insert_of_mem (hv.hint_outputs i hi h hget u hu)
  | hinted i h =>
      rcases meet_hinted (v := v) w i h with ⟨-, heq⟩ | ⟨-, heq⟩ <;> rw [heq]
      · exact hv
      · -- all outputs of the hint are gathered at once, the one that was met among them
        have hplace := System.getElem?_hints_of_role hr
        refine ⟨hv.level, ?_, ?_, ?_, nodup_foldl_insert hv.nodup⟩
        · intro j hj
          rcases List.mem_cons.mp hj with rfl | hold
          · exact ⟨w, h, hw, hr⟩
          · exact hv.expanded j hold
        · intro u hu
          rcases mem_foldl_insert.mp hu with hnew | hold
          · exact .inr ⟨i, List.mem_cons_self, h, hplace, hnew⟩
          · rcases hv.outputs u hold with hfree | ⟨j, hj, hgot⟩
            · exact .inl hfree
            · exact .inr ⟨j, List.mem_cons_of_mem _ hj, hgot⟩
        · intro j hj g hget u hu
          rcases List.mem_cons.mp hj with rfl | hold
          · rw [hplace] at hget
            cases hget
            exact mem_foldl_insert.mpr (.inl hu)
          · exact mem_foldl_insert.mpr (.inr (hv.hint_outputs j hold g hget u hu))

/-- A turn takes a wire off the stack and meets it: what waited or was met still does or is. -/
theorem waits_or_met_of_turn {w u : Wire} {rest : List Wire} {r : Role}
    (hpending : v.pending = w :: rest) (hrole : s.role w = .ok r)
    (hu : u ∈ v.pending ∨ v.Met s u) :
    u ∈ (({ v with pending := rest } : Sweep).meet w r).pending ∨
      (({ v with pending := rest } : Sweep).meet w r).Met s u := by
  rcases hu with hu | hu
  · rw [hpending] at hu
    rcases List.mem_cons.mp hu with rfl | hu
    · exact .inr (met_meet hrole)
    · exact .inl (mem_pending_meet_of_mem hu)
  · have hpopped : ({ v with pending := rest } : Sweep).Met s u := hu
    exact .inr (hpopped.mono (within_meet w r))

theorem OnTheWay.turn {w : Wire} {rest : List Wire} {r : Role} (hv : v.OnTheWay s reads)
    (hpending : v.pending = w :: rest) (hrole : s.role w = .ok r) :
    (({ v with pending := rest } : Sweep).meet w r).OnTheWay s reads := by
  have hw : s.LeadsTo reads w := hv.pending w (hpending ▸ List.mem_cons_self)
  -- what has been gathered does not depend on what still waits
  have hpopped : ({ v with pending := rest } : Sweep).Sound s reads :=
    ⟨hv.sound.level, hv.sound.expanded, hv.sound.outputs, hv.sound.hint_outputs, hv.sound.nodup⟩
  refine ⟨hpopped.meet hw hrole, ?_, ?_, ?_⟩
  · intro u hu
    rcases mem_pending_meet hu with hrest | ⟨i, hint, rfl, harg⟩
    · exact hv.pending u (hpending ▸ List.mem_cons_of_mem _ hrest)
    · exact .argument hw hrole harg
  · intro u hu
    exact waits_or_met_of_turn hpending hrole (hv.reads u hu)
  · intro i hi hint hget u hu
    rcases mem_expanded_meet hi with hold | ⟨hint', rfl, hwait⟩
    · exact waits_or_met_of_turn hpending hrole (hv.arguments i hold hint hget u hu)
    · rw [System.getElem?_hints_of_role hrole] at hget
      cases hget
      exact .inl (hwait u hu)

/-- When nothing waits any more, all that the reads lead to has been met. -/
theorem OnTheWay.met_of_leadsTo (hv : v.OnTheWay s reads) (hdone : v.pending = []) {w : Wire}
    (hw : s.LeadsTo reads w) : v.Met s w := by
  have hnone : ∀ u, (u ∈ v.pending ∨ v.Met s u) → v.Met s u := by
    rintro u (hu | hu)
    · rw [hdone] at hu
      cases hu
    · exact hu
  -- once the hint of a wire is expanded, its arguments have waited, and nothing waits any more
  induction hw with
  | read hmem => exact hnone _ (hv.reads _ hmem)
  | argument hw hrole hmem ih =>
      unfold Met at ih
      rw [hrole] at ih
      exact hnone _ (hv.arguments _ ih _ (System.getElem?_hints_of_role hrole) _ hmem)

end Sweep

namespace System

variable {F : Type} {s t : System F} {reads : List Wire}

/-! ## Whole sweeps -/

/-- A sweep is at its end when nothing waits. -/
theorem pending_eq_nil_of_advance {v : Sweep} (h : s.advance v = .ok none) : v.pending = [] := by
  unfold advance at h
  split at h
  · assumption
  · rename_i w rest hpending
    cases hrole : s.role w <;> rw [hrole] at h <;> cases h

/-- A turn takes the next wire off the stack and meets it. -/
theorem exists_meet_of_advance {v v' : Sweep} (h : s.advance v = .ok (some v')) :
    ∃ w rest r, v.pending = w :: rest ∧ s.role w = .ok r ∧
      v' = ({ v with pending := rest } : Sweep).meet w r := by
  unfold advance at h
  split at h
  · cases h
  · rename_i w rest hpending
    cases hrole : s.role w with
    | error fault =>
        rw [hrole] at h
        cases h
    | ok r =>
        rw [hrole] at h
        cases h
        exact ⟨w, rest, r, hpending, hrole, rfl⟩

theorem sweepFrom_eq (v : Sweep) :
    s.sweepFrom v =
      match s.advance v with
      | .error fault => .error fault
      | .ok none => .ok v
      | .ok (some v') => s.sweepFrom v' := by
  rw [sweepFrom]
  split <;> rename_i heq <;> rw [heq]

theorem onTheWay_of_advance {v v' : Sweep} (hv : v.OnTheWay s reads)
    (h : s.advance v = .ok (some v')) : v'.OnTheWay s reads := by
  obtain ⟨w, rest, r, hpending, hrole, rfl⟩ := exists_meet_of_advance h
  exact hv.turn hpending hrole

/-- A sweep that comes to its end is on its way until nothing waits. -/
theorem onTheWay_sweepFrom {v v' : Sweep} (hv : v.OnTheWay s reads)
    (h : s.sweepFrom v = .ok v') : v'.OnTheWay s reads ∧ v'.pending = [] := by
  fun_induction sweepFrom s v with
  | case1 v fault hadvance => cases h
  | case2 v hadvance =>
      cases h
      exact ⟨hv, pending_eq_nil_of_advance hadvance⟩
  | case3 v next hadvance ih => exact ih (onTheWay_of_advance hv hadvance) h

/-- What a sweep has gathered at its end. -/
structure Gathers (s : System F) (reads : List Wire) (v : Sweep) : Prop extends
    v.Sound s reads where
  met : ∀ w, s.LeadsTo reads w → v.Met s w

theorem gathers_of_sweep {v : Sweep} (h : s.sweep reads = .ok v) : s.Gathers reads v := by
  obtain ⟨hv, hdone⟩ := onTheWay_sweepFrom Sweep.onTheWay_start h
  exact ⟨hv.sound, fun w hw => hv.met_of_leadsTo hdone hw⟩

/-- A sweep that comes to its end met declared wires only. -/
theorem Gathers.exists_role {v : Sweep} (hv : s.Gathers reads v) {w : Wire}
    (hw : s.LeadsTo reads w) : ∃ r, s.role w = .ok r := by
  have hmet := hv.met w hw
  unfold Sweep.Met at hmet
  split at hmet
  · exact hmet.elim
  all_goals exact ⟨_, by assumption⟩

/-- Two systems sweep alike if the wires that the reads lead to have the same roles in both. -/
theorem sweep_congr (hroles : ∀ w, s.LeadsTo reads w → t.role w = s.role w) :
    t.sweep reads = s.sweep reads := by
  -- a turn asks for one role only, that of a wire which has waited and so is led to
  have hadvance : ∀ v : Sweep, v.OnTheWay s reads → t.advance v = s.advance v := by
    intro v hv
    unfold advance
    split
    · rfl
    · rename_i w rest hpending
      rw [hroles w (hv.pending w (hpending ▸ List.mem_cons_self))]
  have hfrom : ∀ v : Sweep, v.OnTheWay s reads → t.sweepFrom v = s.sweepFrom v := by
    intro v
    fun_induction sweepFrom s v with
    | case1 v fault hturn =>
        intro hv
        rw [sweepFrom_eq, hadvance v hv, hturn]
    | case2 v hturn =>
        intro hv
        rw [sweepFrom_eq, hadvance v hv, hturn]
    | case3 v next hturn ih =>
        intro hv
        rw [sweepFrom_eq, hadvance v hv, hturn]
        exact ih (onTheWay_of_advance hv hturn)
  exact hfrom _ Sweep.onTheWay_start

end System

end RankOne

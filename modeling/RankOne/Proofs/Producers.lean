import Mathlib.Data.List.Permutation
import RankOne.Proofs.History
import RankOne.Scalar.Residue

/-!
# Who produces a wire

A hint is *late* if one of its outputs was already produced when it was registered
(`System.lateHints`). As long as no late hint is expanded, the outputs of each hint are produced
together, by one constraint, and never again (`System.soleProducers_of_not_late`).
-/

namespace RankOne

namespace System

variable {F : Type}

/-! ## What a leveling reads and produces -/

/-- The wires that a constraint was said to read, and the arguments of the hints that were expanded
while it was leveled. -/
def Reads (s : System F) (d : Leveled) (w : Wire) : Prop :=
  w ∈ d.reads ∨ ∃ i ∈ d.hints, ∃ h, s.hints.hints[i]? = some h ∧ w ∈ h.inputWires

/-- What a constraint reads is what its sweep was led to. -/
theorem leadsTo_of_reads {s t : System F} {v : Sweep} {cid : Nat} {reads : List Wire} {w : Wire}
    (hv : s.Gathers reads v) (hext : s.Extends t) (hw : t.Reads (v.leveled cid reads) w) :
    s.LeadsTo reads w := by
  rcases hw with hread | ⟨i, hi, h, hget, harg⟩
  · exact .read hread
  · obtain ⟨u, h', hu, hrole⟩ := hv.expanded i hi
    have hsame := hext.hints i h' (getElem?_hints_of_role hrole)
    rw [hget] at hsame
    cases hsame
    exact .argument hu hrole harg

/-- All that a sweep was led to, the constraint reads. -/
theorem reads_of_leadsTo {s t : System F} {v : Sweep} {cid : Nat} {reads : List Wire} {w : Wire}
    (hv : s.Gathers reads v) (hext : s.Extends t) (hw : s.LeadsTo reads w) :
    t.Reads (v.leveled cid reads) w := by
  cases hw with
  | read hmem => exact .inl hmem
  | argument hu hrole harg =>
      -- the wire that led here was met, so its hint is among the expanded ones
      have hmet := hv.met _ hu
      unfold Sweep.Met at hmet
      rw [hrole] at hmet
      exact .inr ⟨_, hmet, _, hext.hints _ _ (getElem?_hints_of_role hrole), harg⟩

/-- A wire that stands for a hint is one of its outputs. -/
theorem mem_outputs_of_role {s : System F} {w : Wire} {i : Nat} {h : Hint}
    (hs : s.hints.Valid s.layout) (hrole : s.role w = .ok (.hinted i h)) : w ∈ h.outputs :=
  (hs.producer?_eq_some_iff_mem.mp (standing_of_role hrole).2.2).2

/-- An internal wire that a sweep is led to was produced below it, or is one of its outputs. -/
theorem produced_or_mem_outputs {s : System F} {v : Sweep} {reads : List Wire} {w : Wire}
    (hv : s.Gathers reads v) (hs : s.hints.Valid s.layout) (hw : s.LeadsTo reads w)
    (hinternal : s.layout.isInput w = false) :
    (∃ level, s.schedule.wireLevel? w = some level ∧ level < v.level) ∨ w ∈ v.outputs := by
  obtain ⟨r, hrole⟩ := hv.exists_role hw
  have hmet := hv.met w hw
  have hstanding := standing_of_role hrole
  unfold Sweep.Met at hmet
  rw [hrole] at hmet
  cases r with
  | known =>
      rw [show s.layout.isInput w = true from hstanding] at hinternal
      cases hinternal
  | produced level => exact .inl ⟨level, hstanding.2, hmet⟩
  | free => exact .inr hmet
  | hinted i h =>
      -- the hint was expanded, and all of its outputs were gathered with it
      exact .inr (hv.hint_outputs i hmet h (getElem?_hints_of_role hrole) w
        (mem_outputs_of_role hs hrole))

/-- The outputs of a sweep are internal wires. -/
theorem internal_of_mem_outputs {s : System F} {v : Sweep} {reads : List Wire} {w : Wire}
    (hv : s.Gathers reads v) (hs : s.hints.Valid s.layout) (hw : w ∈ v.outputs) :
    w.index < s.layout.wireCount ∧ s.layout.isInput w = false := by
  rcases hv.outputs w hw with ⟨-, hrole⟩ | ⟨i, -, h, hget, hmem⟩
  · exact ⟨(role_eq_ok_iff.mp hrole).1, (standing_of_role hrole).1⟩
  · exact hs.internal_of_mem hget hmem

/-- A sweep that gathers an output of a registered hint has expanded the hint. -/
theorem mem_expanded_of_mem_outputs {s : System F} {v : Sweep} {reads : List Wire} {i : Nat}
    {h : Hint} {w : Wire} (hv : s.Gathers reads v) (hs : s.hints.Valid s.layout)
    (hget : s.hints.hints[i]? = some h) (hw : w ∈ h.outputs) (hout : w ∈ v.outputs) :
    i ∈ v.expanded := by
  rcases hv.outputs w hout with ⟨-, hrole⟩ | ⟨j, hj, g, hgetg, hwg⟩
  · -- an output of a hint is not free
    have hnone := (standing_of_role hrole).2.2
    rw [hs.producer?_eq_some_iff_mem.mpr ⟨hget, hw⟩] at hnone
    cases hnone
  · rw [hs.place_unique hget hgetg hw hwg]
    exact hj

/-! ## Hints that are produced as a whole -/

/-- Of each hint but the late ones, all outputs are produced or none is. -/
def Whole (s : System F) (late : Nat → Prop) : Prop :=
  ∀ (i : Nat) (h : Hint), s.hints.hints[i]? = some h → ¬ late i →
    ∀ u ∈ h.outputs, ∀ w ∈ h.outputs,
      s.schedule.wireLevel? u = none → s.schedule.wireLevel? w = none

/-- A sweep that expands no late hint gathers outputs that nothing has produced. -/
theorem unproduced_of_mem_outputs {s : System F} {late : Nat → Prop} {v : Sweep}
    {reads : List Wire} {w : Wire} (hv : s.Gathers reads v) (hs : s.hints.Valid s.layout)
    (hwhole : s.Whole late) (hlate : ∀ i ∈ v.expanded, ¬ late i) (hw : w ∈ v.outputs) :
    s.schedule.wireLevel? w = none := by
  rcases hv.outputs w hw with ⟨-, hrole⟩ | ⟨i, hi, h, hget, hmem⟩
  · exact (standing_of_role hrole).2.1
  · -- the wire through which the hint was met is an output of it, and not produced
    obtain ⟨u, h', -, hrole⟩ := hv.expanded i hi
    have hget' := getElem?_hints_of_role hrole
    rw [hget] at hget'
    cases hget'
    exact hwhole i h hget (hlate i hi) u (mem_outputs_of_role hs hrole) w hmem
      (standing_of_role hrole).2.1

/-- Recording such a sweep produces whole hints. -/
theorem Whole.record {s : System F} {late : Nat → Prop} {v : Sweep} {cid : Nat}
    {reads : List Wire} (entries : Array Entry) (hwhole : s.Whole late)
    (hv : s.Gathers reads v) (hs : s.hints.Valid s.layout) :
    ({ s with
      entries := entries
      schedule := s.schedule.record (v.leveled cid reads) } : System F).Whole late := by
  intro i h hget hi u hu w hw
  show (s.schedule.record (v.leveled cid reads)).wireLevel? u = none →
    (s.schedule.record (v.leveled cid reads)).wireLevel? w = none
  rw [Schedule.wireLevel?_record_eq_none_iff, Schedule.wireLevel?_record_eq_none_iff]
  rintro ⟨hout, hnone⟩
  refine ⟨?_, hwhole i h hget hi u hu w hw hnone⟩
  intro hmem
  -- the hint was expanded, so its other output was gathered as well
  have hexpanded := mem_expanded_of_mem_outputs hv hs hget hw hmem
  exact hout (hv.hint_outputs i hexpanded h hget u hu)

/-! ## Late hints -/

variable [Zero F] [One F] [Add F] [Neg F] [DecidableEq F]

/-- The place of a hint that a call registers although one of its outputs is already produced. -/
def lateHint? (s : System F) (c : Call F) : Option Nat :=
  match c, (s.call c).1 with
  | .register h, .ok (.hint i) =>
    if h.outputs.any fun w => (s.schedule.wireLevel? w).isSome then some i else none
  | _, _ => none

/-- The places of all hints that some calls register late. -/
def lateHints (s : System F) : List (Call F) → List Nat
  | [] => []
  | c :: rest => (s.lateHint? c).toList ++ (s.call c).2.lateHints rest

theorem lateHints_append (s : System F) (xs ys : List (Call F)) :
    s.lateHints (xs ++ ys) = s.lateHints xs ++ (s.run xs).lateHints ys := by
  induction xs generalizing s with
  | nil => rfl
  | cons c rest ih =>
      rw [List.cons_append, lateHints, lateHints, ih, List.append_assoc]
      rfl

/-- An accepted hint takes the next place. -/
theorem call_register_eq_ok_iff {s : System F} {h : Hint} {a : Answer} :
    (s.call (.register h)).1 = .ok a ↔
      s.hints.check s.layout h = .ok () ∧ a = .hint s.hints.hints.size := by
  rw [call]
  rcases s.register_cases h with ⟨fault, hcheck, hregister⟩ | ⟨hcheck, hregister⟩
  · simp [hcheck, hregister, reply, Except.map]
  · simp [hcheck, hregister, reply, Except.map, eq_comm]

theorem getElem?_hints_call_register {s : System F} {h : Hint}
    (hcheck : s.hints.check s.layout h = .ok ()) :
    (s.call (.register h)).2.hints.hints[s.hints.hints.size]? = some h := by
  have hregister : s.register h = (.ok s.hints.hints.size, { s with hints := s.hints.push h }) :=
    register_eq_ok_iff.mpr ⟨hcheck, rfl, rfl⟩
  rw [call, hregister]
  exact (HintRegistry.getElem?_hints_push ..).trans (if_pos rfl)

/-- A hint is late if it is accepted when one of its outputs has a producing level. -/
theorem lateHint?_eq_some_iff {s : System F} {c : Call F} {i : Nat} :
    s.lateHint? c = some i ↔
      ∃ h, c = .register h ∧ (s.call c).1 = .ok (.hint i) ∧
        ∃ w ∈ h.outputs, ∃ level, s.schedule.wireLevel? w = some level := by
  cases c with
  | register h =>
      have hany : (h.outputs.any fun w => (s.schedule.wireLevel? w).isSome) = true ↔
          ∃ w ∈ h.outputs, ∃ level, s.schedule.wireLevel? w = some level := by
        simp only [List.any_eq_true, Option.isSome_iff_exists]
      unfold lateHint?
      split
      · rename_i h' j heq hanswer
        cases heq
        rw [hanswer]
        split
        · rename_i hlate
          simp [hany.mp hlate]
        · rename_i hlate
          rw [hany] at hlate
          simp [hlate]
      · rename_i hother
        refine ⟨nofun, ?_⟩
        rintro ⟨h', heq, hanswer, -⟩
        exact absurd hanswer (hother h' i heq)
  | _ => simp [lateHint?]

theorem mem_lateHints_iff {s : System F} {calls : List (Call F)} {i : Nat} :
    i ∈ s.lateHints calls ↔
      ∃ before c after, calls = before ++ c :: after ∧ (s.run before).lateHint? c = some i := by
  induction calls generalizing s with
  | nil => simp [lateHints]
  | cons c rest ih =>
      rw [lateHints, List.mem_append, ih, Option.mem_toList]
      constructor
      · rintro (hnow | ⟨before, c', after, rfl, hlate⟩)
        · exact ⟨[], c, rest, rfl, hnow⟩
        · exact ⟨c :: before, c', after, rfl, hlate⟩
      · rintro ⟨before, c', after, hcalls, hlate⟩
        cases before with
        | nil =>
            cases hcalls
            exact .inl hlate
        | cons b before =>
            cases hcalls
            exact .inr ⟨before, c', after, rfl, hlate⟩

theorem Whole.call {s : System F} {late : Nat → Prop} {c : Call F} (hwhole : s.Whole late)
    (hs : s.hints.Valid s.layout) (hregister : ∀ i, s.lateHint? c = some i → late i) :
    (s.call c).2.Whole late := by
  have heffect := s.effect_of_call c
  generalize (s.decision c).toList = ds at heffect
  generalize (s.call c).2 = t at heffect ⊢
  cases heffect with
  | nothing => exact hwhole
  | declared hl => exact hwhole
  | interned => exact hwhole
  | stored => exact hwhole
  | leveled hentries hstored hsweep => exact hwhole.record _ (gathers_of_sweep hsweep) hs
  | registered hc hcheck =>
      rename_i h
      subst hc
      intro i g hget hi u hu w hw hnone
      rw [HintRegistry.getElem?_hints_push] at hget
      split at hget
      · rename_i hplace
        cases hget
        -- if one output were produced and another were not, the hint would be late
        by_contra hproduced
        refine hi (hregister i (lateHint?_eq_some_iff.mpr ⟨h, rfl, ?_, w, hw, ?_⟩))
        · exact call_register_eq_ok_iff.mpr ⟨hcheck, by rw [hplace]⟩
        · exact Option.ne_none_iff_exists'.mp hproduced
      · exact hwhole i g hget hi u hu w hw hnone

/-- If no late hint is expanded, levelings produce what nothing has produced, each wire once. -/
theorem soleProducers_of_whole {s : System F} {late : Nat → Prop} {calls : List (Call F)}
    (hs : s.hints.Valid s.layout) (hwhole : s.Whole late)
    (hregister : ∀ i ∈ s.lateHints calls, late i)
    (hexpand : ∀ d ∈ s.levelings calls, ∀ i ∈ d.hints, ¬ late i) :
    (∀ d ∈ s.levelings calls, ∀ w ∈ d.outputs, s.schedule.wireLevel? w = none) ∧
      Schedule.SoleProducers (s.levelings calls) := by
  induction calls generalizing s with
  | nil => exact ⟨fun _ hd => absurd hd List.not_mem_nil, List.Pairwise.nil⟩
  | cons c rest ih =>
      rw [levelings_cons] at hexpand ⊢
      -- a call keeps hints whole, so the rest of the run produces what is unproduced after it
      have hcall : (s.call c).2.Whole late := by
        refine hwhole.call hs fun i hi => hregister i ?_
        rw [lateHints, hi]
        exact List.mem_append_left _ (by simp)
      obtain ⟨hfresh, hsole⟩ := ih ((s.effect_of_call c).valid hs) hcall
        (fun i hi => hregister i (List.mem_append_right _ hi))
        (fun d hd => hexpand d (List.mem_append_right _ hd))
      have hschedule := (s.effect_of_call c).schedule_eq
      cases hdecision : s.decision c with
      | none =>
          rw [hdecision] at hschedule
          rw [hschedule] at hfresh
          exact ⟨hfresh, hsole⟩
      | some e =>
          rw [hdecision] at hschedule hexpand
          obtain ⟨v, hsweep, he⟩ := sweep_of_decision hdecision
          have hnew : ∀ w ∈ e.outputs, s.schedule.wireLevel? w = none := by
            intro w hw
            rw [he] at hw
            refine unproduced_of_mem_outputs (gathers_of_sweep hsweep) hs hwhole ?_ hw
            have hexpanded := hexpand e (by simp)
            rw [he] at hexpanded
            exact hexpanded
          -- what is unproduced after the leveling is not among its outputs
          have hlater : ∀ d ∈ (s.call c).2.levelings rest, ∀ w ∈ d.outputs,
              w ∉ e.outputs ∧ s.schedule.wireLevel? w = none := by
            intro d hd w hw
            have hnone := hfresh d hd w hw
            rw [hschedule] at hnone
            exact (Schedule.wireLevel?_record_eq_none_iff s.schedule e w).mp hnone
          rw [Option.toList_some, List.singleton_append]
          refine ⟨?_, List.Pairwise.cons ?_ hsole⟩
          · intro d hd
            rcases List.mem_cons.mp hd with rfl | hd
            · exact hnew
            · exact fun w hw => (hlater d hd w hw).2
          · exact fun d hd w hw hwd => (hlater d hd w hwd).1 hw

/-! ## Runs on an empty system -/

omit [Zero F] [One F] [Add F] [Neg F] [DecidableEq F] in
theorem whole_empty (config : Config) (late : Nat → Prop) :
    (empty config : System F).Whole late :=
  fun _ _ _ _ _ _ _ _ _ => Schedule.wireLevel?_empty _

/-- A run that expands no hint which it registered late has sole producers. -/
theorem soleProducers_of_not_late {config : Config} {calls : List (Call F)}
    (h : ∀ d ∈ (empty config : System F).levelings calls, ∀ i ∈ d.hints,
      i ∉ (empty config : System F).lateHints calls) :
    Schedule.SoleProducers ((empty config : System F).levelings calls) :=
  (soleProducers_of_whole (HintRegistry.valid_empty _) (whole_empty config _)
    (fun _ hi => hi) h).2

/-- A run that registers no hint late has sole producers, whatever it expands. -/
theorem soleProducers_of_lateHints_eq_nil {config : Config} {calls : List (Call F)}
    (h : (empty config : System F).lateHints calls = []) :
    Schedule.SoleProducers ((empty config : System F).levelings calls) := by
  refine soleProducers_of_not_late fun d _ i _ => ?_
  rw [h]
  exact List.not_mem_nil

/-- A hint is there only after the call that registers it. -/
theorem exists_after_register {s : System F} {before after earlier later : List (Call F)}
    {hint g : Hint} (hsplit : before ++ .register hint :: after = earlier ++ later)
    (hget : (s.run earlier).hints.hints[(s.run before).hints.hints.size]? = some g) :
    ∃ x, earlier = before ++ .register hint :: x := by
  have hnot : ∀ x, before ≠ earlier ++ x := by
    intro x hx
    have hstill := (extends_run (s.run earlier) x).hints _ g hget
    rw [← run_append, ← hx] at hstill
    simp at hstill
  rcases List.append_eq_append_iff.mp hsplit with ⟨x, hearlier, hx⟩ | ⟨x, hbefore, -⟩
  · cases x with
    | nil => exact absurd (by rw [hearlier]; simp) (hnot [])
    | cons c x =>
        cases hx
        exact ⟨x, hearlier⟩
  · exact absurd hbefore (hnot x)

/-- The constraint that expands a late hint produces a wire that an earlier one has produced. -/
theorem not_soleProducers_of_late {config : Config} {calls : List (Call F)} {d : Leveled} {i : Nat}
    (hd : d ∈ (empty config : System F).levelings calls) (hi : i ∈ d.hints)
    (hlate : i ∈ (empty config : System F).lateHints calls) :
    ¬ Schedule.SoleProducers ((empty config : System F).levelings calls) := by
  intro hsole
  obtain ⟨before, c, after, hcalls, hregister⟩ := mem_lateHints_iff.mp hlate
  obtain ⟨hint, rfl, hanswer, w, hw, level, hlevel⟩ := lateHint?_eq_some_iff.mp hregister
  obtain ⟨hcheck, hplace⟩ := call_register_eq_ok_iff.mp hanswer
  replace hplace := Answer.hint.inj hplace
  obtain ⟨pre, post, hsplit⟩ := List.append_of_mem hd
  obtain ⟨earlier, later, v, hcalls', hpre, hsweep, hdv⟩ := exists_system_of_leveling hsplit
  have hv := gathers_of_sweep hsweep
  have hexpanded : i ∈ v.expanded := by
    rw [hdv] at hi
    exact hi
  obtain ⟨u, g, -, hrole⟩ := hv.expanded i hexpanded
  have hthen := getElem?_hints_of_role hrole
  -- the hint was registered before it was expanded, so it was expanded with all of its outputs
  rw [hplace] at hthen
  obtain ⟨x, rfl⟩ := exists_after_register (hcalls.symm.trans hcalls') hthen
  have hget := (extends_run (((empty config).run before).call (.register hint)).2 x).hints _ hint
    (getElem?_hints_call_register hcheck)
  rw [← hplace] at hget
  have hwd : w ∈ d.outputs := by
    rw [hdv]
    rw [run_append] at hv
    exact hv.hint_outputs i hexpanded hint hget w hw
  rw [schedule_run_empty] at hlevel
  obtain ⟨p, hp, hwp, -⟩ := Schedule.exists_producer hlevel
  have hppre : p ∈ pre := by
    rw [← hpre, levelings_append]
    exact List.mem_append_left _ hp
  unfold Schedule.SoleProducers at hsole
  rw [hsplit, List.pairwise_append] at hsole
  exact hsole.2.2 p hppre d List.mem_cons_self w hwp hwd

/-- Every wire keeps its producing level, and no wire is produced by two constraints, exactly in the
runs that expand no late hint. -/
theorem production_permanent_iff (config : Config) (calls : List (Call F)) :
    ((∀ before mid after, calls = before ++ mid ++ after → ∀ w level,
        ((empty config).run before).schedule.wireLevel? w = some level →
          ((empty config).run (before ++ mid)).schedule.wireLevel? w = some level) ∧
      ∀ p ∈ (empty config).levelings calls, ∀ q ∈ (empty config).levelings calls,
        ∀ w ∈ p.outputs, w ∈ q.outputs → p.cid = q.cid) ↔
    ∀ d ∈ (empty config).levelings calls, ∀ i ∈ d.hints, i ∉ (empty config).lateHints calls := by
  rw [← Schedule.soleProducers_iff fun _ _ => cid_of_getElem?_levelings]
  constructor
  · rintro ⟨-, hsole⟩ d hd i hi hlate
    exact not_soleProducers_of_late hd hi hlate hsole
  · intro hlate
    have hsole := soleProducers_of_not_late hlate
    refine ⟨?_, hsole⟩
    rintro before mid after rfl w level hlevel
    rw [levelings_append, levelings_append] at hsole
    have hprefix := (List.pairwise_append.mp hsole).1
    rw [schedule_run_empty] at hlevel ⊢
    obtain ⟨p, hp, hwp, rfl⟩ := Schedule.exists_producer hlevel
    rw [levelings_append]
    exact Schedule.SoleProducers.wireLevel? hprefix (List.mem_append_left _ hp) hwp

/-! ## A late hint -/

/-- Stores and levels a constraint over some wires. -/
def appendOver (wires : List Nat) : Call (Residue 17) :=
  .appendLeveled { left := ⟨wires.map fun i => ⟨.one, ⟨i⟩⟩⟩ } none

/-- Registers a hint from some wires to others. -/
def registerOver (inputs outputs : List Nat) : Call (Residue 17) :=
  .register ⟨⟨0⟩, [⟨inputs.map fun i => ⟨.one, ⟨i⟩⟩⟩], outputs.map Wire.mk⟩

/-- Wire 1 is produced at level 0 and read at level 1, and then becomes an output of a hint. -/
def lateRun : List (Call (Residue 17)) :=
  [.declareInternal, .declareInternal, .declareInternal, appendOver [1], appendOver [1, 3],
    registerOver [] [1, 2]]

/-- Reading the other output of a late hint produces wire 1 again. After a read of wire 3 this moves
it to a level above that of a constraint which has read it, and without one both producers are at
the same level. -/
theorem late_hint_moves_production :
    (((empty {}).run lateRun).schedule.wireLevel? ⟨1⟩ = some 0 ∧
      ((empty {}).run (lateRun ++ [appendOver [3, 2]])).schedule.wireLevel? ⟨1⟩ = some 2 ∧
      ((empty {}).run (lateRun ++ [appendOver [3, 2]])).schedule.level? 1 = some 1) ∧
    (∃ p ∈ (empty {}).levelings (lateRun ++ [appendOver [3, 2]]),
      ∃ q ∈ (empty {}).levelings (lateRun ++ [appendOver [3, 2]]),
        ⟨1⟩ ∈ p.outputs ∧ ⟨1⟩ ∈ q.outputs ∧ p.cid ≠ q.cid) ∧
    ∃ p ∈ (empty {}).levelings (lateRun ++ [appendOver [2]]),
      ∃ q ∈ (empty {}).levelings (lateRun ++ [appendOver [2]]),
        ⟨1⟩ ∈ p.outputs ∧ ⟨1⟩ ∈ q.outputs ∧ p.cid ≠ q.cid ∧ p.level = q.level := by
  have hmoved : (empty {}).levelings (lateRun ++ [appendOver [3, 2]]) =
      [⟨0, 0, [⟨1⟩], [⟨1⟩], []⟩, ⟨1, 1, [⟨1⟩, ⟨3⟩], [⟨3⟩], []⟩,
        ⟨2, 2, [⟨3⟩, ⟨2⟩], [⟨2⟩, ⟨1⟩], [0]⟩] := by cbv
  have hshared : (empty {}).levelings (lateRun ++ [appendOver [2]]) =
      [⟨0, 0, [⟨1⟩], [⟨1⟩], []⟩, ⟨1, 1, [⟨1⟩, ⟨3⟩], [⟨3⟩], []⟩,
        ⟨2, 0, [⟨2⟩], [⟨2⟩, ⟨1⟩], [0]⟩] := by cbv
  refine ⟨⟨by cbv, by cbv, by cbv⟩, ?_, ?_⟩
  · rw [hmoved]
    exact ⟨⟨0, 0, [⟨1⟩], [⟨1⟩], []⟩, by simp, ⟨2, 2, [⟨3⟩, ⟨2⟩], [⟨2⟩, ⟨1⟩], [0]⟩, by simp,
      by decide⟩
  · rw [hshared]
    exact ⟨⟨0, 0, [⟨1⟩], [⟨1⟩], []⟩, by simp, ⟨2, 0, [⟨2⟩], [⟨2⟩, ⟨1⟩], [0]⟩, by simp,
      by decide⟩

end System

end RankOne

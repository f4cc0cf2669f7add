import Mathlib.Data.List.FinRange
import Mathlib.Logic.Equiv.Fin.Basic
import RankOne.Proofs.Producers

/-!
# Constraints in another order

After the declarations and the hints, constraints may be appended in any order along which their
levels do not decrease: each is accepted and gets its level as before, and every wire ends up at the
same one (`System.reorder_by_level`). A plan (`System.Plan`) says what appending a list of
constraints decides. Its steps may come in another order (`System.Plan.reorder`), because what a
sweep is led to has the same roles as soon as all constraints of lower levels are there.
-/

namespace RankOne

/-- The call that stores and levels a constraint. -/
def Entry.appendLeveled {F : Type} (e : Entry) : Call F := .appendLeveled e.constraint e.source

/-- Whether a call stores and levels nothing. -/
def Call.isPreparation {F : Type} : Call F → Bool
  | .append .. | .appendLeveled .. | .level .. => false
  | _ => true

namespace Schedule

variable {ds ds' : List Leveled}

theorem SoleProducers.perm (h : SoleProducers ds) (hperm : ds'.Perm ds) : SoleProducers ds' :=
  (hperm.pairwise_iff fun hpq u hq hp => hpq u hp hq).mpr h

/-- The order of levelings with sole producers does not matter to the wires. -/
theorem SoleProducers.wireLevel?_perm (h : SoleProducers ds) (hperm : ds'.Perm ds) (w : Wire) :
    (replay ds').wireLevel? w = (replay ds).wireLevel? w := by
  cases hlevel : (replay ds').wireLevel? w with
  | some level =>
      obtain ⟨p, hp, hwp, rfl⟩ := exists_producer hlevel
      exact (h.wireLevel? (hperm.mem_iff.mp hp) hwp).symm
  | none =>
      have hunproduced := wireLevel?_replay_eq_none_iff.mp hlevel
      have hnone : (replay ds).wireLevel? w = none :=
        wireLevel?_replay_eq_none_iff.mpr fun p hp => hunproduced p (hperm.mem_iff.mpr hp)
      exact hnone.symm

end Schedule

namespace System

variable {F : Type}

/-! ## Plans -/

/-- Roles are a matter of the layout, the hints and the producing levels. -/
theorem role_congr {s t : System F} {w : Wire} (hlayout : t.layout = s.layout)
    (hhints : t.hints = s.hints)
    (hlevel : t.schedule.wireLevel? w = s.schedule.wireLevel? w) : t.role w = s.role w := by
  unfold role
  rw [hlayout, hhints, hlevel]

theorem role_of_input {s : System F} {w : Wire} (h : s.layout.isInput w = true) :
    s.role w = .ok .known :=
  role_eq_ok_iff.mpr
    ⟨Nat.lt_of_lt_of_le (Layout.isInput_iff.mp h) s.layout.inputCount_le_wireCount, h⟩

/-- What appending a constraint decides after some levelings. -/
def Settles (s : System F) (before : List Leveled) (e : Entry) (d : Leveled) : Prop :=
  (∀ w ∈ e.constraint.wires, w.index < s.layout.wireCount) ∧
    ∃ v, ({ s with schedule := .replay before } : System F).sweep e.constraint.wires = .ok v ∧
      d.level = v.level ∧ d.outputs = v.outputs

/-- What appending a list of constraints decides. -/
def Plan (s : System F) (steps : List (Entry × Leveled)) : Prop :=
  ∀ pre e d post, steps = pre ++ (e, d) :: post → s.Settles (pre.map Prod.snd) e d

theorem plan_nil {s : System F} : s.Plan [] := by
  intro pre e d post h
  cases pre <;> cases h

theorem plan_concat {s : System F} {steps : List (Entry × Leveled)} {e : Entry} {d : Leveled} :
    s.Plan (steps ++ [(e, d)]) ↔ s.Plan steps ∧ s.Settles (steps.map Prod.snd) e d := by
  constructor
  · intro h
    refine ⟨?_, h steps e d [] rfl⟩
    rintro pre e' d' post rfl
    exact h pre e' d' (post ++ [(e, d)]) (by simp)
  · -- a step of the longer plan is its last one, or one of the shorter plan
    rintro ⟨hsteps, hlast⟩ pre e' d' post heq
    rcases List.eq_nil_or_concat post with rfl | ⟨post, x, rfl⟩
    · obtain ⟨rfl, hx⟩ := List.append_inj' heq rfl
      cases hx
      exact hlast
    · rw [List.concat_eq_append, ← List.cons_append, ← List.append_assoc] at heq
      obtain ⟨rfl, -⟩ := List.append_inj' heq rfl
      exact hsteps pre e' d' post rfl

/-- The steps of a plan may come in any order along which their levels do not decrease. -/
theorem Plan.reorder {s : System F} {steps steps' : List (Entry × Leveled)}
    (h : s.Plan steps) (hs : s.hints.Valid s.layout)
    (hsole : Schedule.SoleProducers (steps.map Prod.snd)) (hperm : steps'.Perm steps)
    (hsorted : (steps'.map Prod.snd).Pairwise fun p q => p.level ≤ q.level) : s.Plan steps' := by
  rintro pre' e d post' rfl
  -- the step as it stands in the old plan, after `pre` there and after `pre'` in the new one
  have hmem : (e, d) ∈ steps := hperm.mem_iff.mp (by simp)
  obtain ⟨pre, post, rfl⟩ := List.append_of_mem hmem
  obtain ⟨hdeclared, v, hsweep, hlevel, houtputs⟩ := h pre e d post rfl
  refine ⟨hdeclared, v, ?_, hlevel, houtputs⟩
  rw [← hsweep]
  have hv := gathers_of_sweep hsweep
  have hsole' := hsole.perm (hperm.map Prod.snd)
  simp only [List.map_append, List.map_cons] at hsole hsole' hsorted
  obtain ⟨hpre, -, hbefore⟩ := List.pairwise_append.mp hsole
  obtain ⟨hpre', -, hbefore'⟩ := List.pairwise_append.mp hsole'
  obtain ⟨-, hafter', -⟩ := List.pairwise_append.mp hsorted
  apply sweep_congr
  intro w hw
  cases hinput : s.layout.isInput w with
  | true =>
      rw [role_of_input (s := { s with schedule := .replay (pre.map Prod.snd) }) hinput]
      exact role_of_input hinput
  | false =>
      refine role_congr rfl rfl ?_
      show (Schedule.replay (pre'.map Prod.snd)).wireLevel? w =
        (Schedule.replay (pre.map Prod.snd)).wireLevel? w
      rcases produced_or_mem_outputs hv hs hw hinput with ⟨level, hproduced, hlt⟩ | hout
      · -- the producer has a lower level, so it stays before `d`
        obtain ⟨p, hp, hwp, rfl⟩ := Schedule.exists_producer hproduced
        have hp' : p ∈ pre'.map Prod.snd := by
          have hmem' : p ∈ (pre' ++ (e, d) :: post').map Prod.snd :=
            (hperm.map Prod.snd).mem_iff.mpr (by simp [hp])
          rw [List.map_append, List.map_cons, List.mem_append, List.mem_cons] at hmem'
          rcases hmem' with hearlier | rfl | hlater
          · exact hearlier
          · omega
          · have hle : d.level ≤ p.level := List.rel_of_pairwise_cons hafter' hlater
            omega
        rw [Schedule.SoleProducers.wireLevel? hpre' hp' hwp,
          Schedule.SoleProducers.wireLevel? hpre hp hwp]
      · -- the producer is `d` itself, so nothing before it produces the wire
        rw [← houtputs] at hout
        have hnone : (Schedule.replay (pre.map Prod.snd)).wireLevel? w = none :=
          Schedule.wireLevel?_replay_eq_none_iff.mpr fun p hp hwp =>
            hbefore p hp d List.mem_cons_self w hwp hout
        have hnone' : (Schedule.replay (pre'.map Prod.snd)).wireLevel? w = none :=
          Schedule.wireLevel?_replay_eq_none_iff.mpr fun p hp hwp =>
            hbefore' p hp d List.mem_cons_self w hwp hout
        rw [hnone, hnone']

/-! ## Runs along a plan -/

/-- One system has come from another by appending constraints, with these levels and outputs. The
ids of the levelings may be others. -/
structure Tracks (s t : System F) (ds : List Leveled) : Prop where
  layout : t.layout = s.layout
  hints : t.hints = s.hints
  entryCount : t.entries.size = ds.length
  leveledCount : t.schedule.leveledCount = ds.length
  level? : ∀ cid, t.schedule.level? cid = ds[cid]?.map Leveled.level
  wireLevel? : ∀ w, t.schedule.wireLevel? w = (Schedule.replay ds).wireLevel? w

theorem tracks_nil {s : System F} (hentries : s.entries = #[]) (hschedule : s.schedule = {}) :
    s.Tracks s [] := by
  refine ⟨rfl, rfl, ?_, ?_, ?_, ?_⟩ <;> simp [hentries, hschedule]
  · rfl
  · exact fun _ => rfl

theorem Tracks.sweep_eq {s t : System F} {ds : List Leveled} (ht : s.Tracks t ds)
    (reads : List Wire) :
    t.sweep reads = ({ s with schedule := .replay ds } : System F).sweep reads :=
  sweep_congr fun w _ => role_congr ht.layout ht.hints (ht.wireLevel? w)

theorem Tracks.record {s t : System F} {ds : List Leveled} {d d' : Leveled}
    (ht : s.Tracks t ds) (e : Entry) (hlevel : d'.level = d.level)
    (houtputs : d'.outputs = d.outputs) :
    s.Tracks { t with entries := t.entries.push e, schedule := t.schedule.record d' }
      (ds ++ [d]) := by
  refine ⟨ht.layout, ht.hints, ?_, ?_, ?_, ?_⟩
  · rw [Array.size_push, ht.entryCount, List.length_append, List.length_singleton]
  · rw [Schedule.leveledCount_record, ht.leveledCount, List.length_append, List.length_singleton]
  · intro cid
    rw [← Schedule.level?_replay, Schedule.replay_concat, Schedule.level?_record,
      Schedule.level?_record, Schedule.level?_replay, Schedule.leveledCount_replay,
      ht.leveledCount, ht.level?, hlevel]
  · intro w
    rw [Schedule.replay_concat, Schedule.wireLevel?_record, Schedule.wireLevel?_record,
      ht.wireLevel?, hlevel, houtputs]

/-- A constraint that is accepted settles as it was decided. -/
theorem Tracks.settles_of_appendLeveled {s t t' : System F} {ds : List Leveled} {e : Entry}
    {d : Leveled} (ht : s.Tracks t ds)
    (hok : t.appendLeveled e.constraint e.source = (.ok d, t')) :
    s.Settles ds e d ∧ s.Tracks t' (ds ++ [d]) := by
  obtain ⟨hdeclared, -, v, hsweep, rfl, rfl⟩ := appendLeveled_eq_ok_iff.mp hok
  rw [ht.layout] at hdeclared
  rw [ht.sweep_eq] at hsweep
  exact ⟨⟨hdeclared, v, hsweep, rfl, rfl⟩, ht.record e rfl rfl⟩

/-- A constraint that settles is accepted. -/
theorem Tracks.appendLeveled_of_settles {s t : System F} {ds : List Leveled} {e : Entry}
    {d : Leveled} (ht : s.Tracks t ds) (h : s.Settles ds e d) :
    ∃ d' t', t.appendLeveled e.constraint e.source = (.ok d', t') ∧ s.Tracks t' (ds ++ [d]) := by
  obtain ⟨hdeclared, v, hsweep, hlevel, houtputs⟩ := h
  rw [← ht.layout] at hdeclared
  rw [← ht.sweep_eq] at hsweep
  refine ⟨_, _, appendLeveled_eq_ok_iff.mpr ⟨hdeclared, ?_, v, hsweep, rfl, rfl⟩,
    ht.record e hlevel.symm houtputs.symm⟩
  rw [ht.entryCount, ht.leveledCount]

theorem Tracks.level?_ofFn {s t : System F} {n : Nat} {ds : Fin n → Leveled}
    (ht : s.Tracks t (List.ofFn ds)) (i : Fin n) :
    t.schedule.level? i = some (ds i).level := by
  rw [ht.level?, List.getElem?_ofFn, dif_pos i.isLt]
  rfl

variable [Zero F] [One F] [Add F] [Neg F] [DecidableEq F]

/-- No call of some is turned down. -/
def Accepts (s : System F) (calls : List (Call F)) : Prop :=
  ∀ a ∈ s.answers calls, ∃ answer, a = .ok answer

theorem accepts_cons {s : System F} {c : Call F} {rest : List (Call F)} :
    s.Accepts (c :: rest) ↔
      (∃ answer, (s.call c).1 = .ok answer) ∧ (s.call c).2.Accepts rest :=
  List.forall_mem_cons

theorem call_appendLeveled {s t : System F} {e : Entry} {d : Leveled}
    (h : s.appendLeveled e.constraint e.source = (.ok d, t)) :
    s.call e.appendLeveled = (.ok (.leveled d), t) :=
  congrArg (reply .leveled) h

theorem exists_of_call_appendLeveled {s : System F} {e : Entry} {answer : Answer}
    (h : (s.call e.appendLeveled).1 = .ok answer) :
    ∃ d t, s.appendLeveled e.constraint e.source = (.ok d, t) := by
  rcases hresult : s.appendLeveled e.constraint e.source with ⟨result, t⟩
  cases result with
  | error fault =>
      have hcall : s.call e.appendLeveled = (.error fault, t) := congrArg (reply .leveled) hresult
      rw [hcall] at h
      cases h
  | ok d => exact ⟨d, t, rfl⟩

theorem accepts_iff {s : System F} {calls : List (Call F)} :
    s.Accepts calls ↔ ((s.answers calls).all fun a => a.isOk) = true := by
  rw [List.all_eq_true]
  refine forall₂_congr fun a _ => ?_
  cases a <;> simp [Except.isOk, Except.toBool]

/-- Constraints that are all accepted come with a plan. -/
theorem Tracks.exists_plan {s t : System F} {before : List (Entry × Leveled)} {es : List Entry}
    (ht : s.Tracks t (before.map Prod.snd)) (hplan : s.Plan before)
    (haccepts : t.Accepts (es.map Entry.appendLeveled)) :
    ∃ steps, steps.map Prod.fst = es ∧ s.Plan (before ++ steps) ∧
      t.levelings (es.map Entry.appendLeveled) = steps.map Prod.snd ∧
      s.Tracks (t.run (es.map Entry.appendLeveled)) ((before ++ steps).map Prod.snd) := by
  -- `before` holds the constraints that have been accepted on the way to `t`
  induction es generalizing t before with
  | nil => exact ⟨[], rfl, by rwa [List.append_nil], rfl, by rwa [List.append_nil]⟩
  | cons e es ih =>
      rw [List.map_cons] at haccepts ⊢
      obtain ⟨⟨answer, hanswer⟩, hrest⟩ := accepts_cons.mp haccepts
      obtain ⟨d, t', hok⟩ := exists_of_call_appendLeveled hanswer
      have hcall := call_appendLeveled hok
      rw [hcall] at hrest
      obtain ⟨hsettles, hnext⟩ := ht.settles_of_appendLeveled hok
      -- what the accepted constraint decided becomes the next step of the plan
      have htracks : s.Tracks t' ((before ++ [(e, d)]).map Prod.snd) := by simpa using hnext
      obtain ⟨steps, rfl, hsteps, hlevelings, hend⟩ :=
        ih htracks (plan_concat.mpr ⟨hplan, hsettles⟩) hrest
      rw [List.append_assoc, List.singleton_append] at hsteps hend
      refine ⟨(e, d) :: steps, rfl, hsteps, ?_, ?_⟩
      · rw [levelings_cons, decision, hcall, hlevelings]
        rfl
      · rw [run, hcall]
        exact hend

/-- The constraints of a plan are all accepted. -/
theorem Tracks.accepts_of_plan {s t : System F} {before steps : List (Entry × Leveled)}
    (ht : s.Tracks t (before.map Prod.snd)) (hplan : s.Plan (before ++ steps)) :
    t.Accepts (steps.map fun x => x.1.appendLeveled) ∧
      s.Tracks (t.run (steps.map fun x => x.1.appendLeveled))
        ((before ++ steps).map Prod.snd) := by
  induction steps generalizing t before with
  | nil => exact ⟨fun _ h => absurd h List.not_mem_nil, by rwa [List.append_nil]⟩
  | cons x steps ih =>
      obtain ⟨e, d⟩ := x
      obtain ⟨d', t', hok, hnext⟩ := ht.appendLeveled_of_settles (hplan before e d steps rfl)
      have htracks : s.Tracks t' ((before ++ [(e, d)]).map Prod.snd) := by simpa using hnext
      obtain ⟨haccepts, hend⟩ := ih htracks (by simpa using hplan)
      rw [List.append_assoc, List.singleton_append] at hend
      rw [List.map_cons, accepts_cons, run, call_appendLeveled hok]
      exact ⟨⟨⟨_, rfl⟩, haccepts⟩, hend⟩

/-! ## After declarations and hints -/

/-- Preparations store and level nothing. -/
theorem run_preparations {s : System F} {setup : List (Call F)}
    (h : ∀ c ∈ setup, c.isPreparation) :
    (s.run setup).entries = s.entries ∧ (s.run setup).schedule = s.schedule := by
  induction setup generalizing s with
  | nil => exact ⟨rfl, rfl⟩
  | cons c rest ih =>
      obtain ⟨hc, hrest⟩ := List.forall_mem_cons.mp h
      have hcall : (s.call c).2.entries = s.entries ∧ (s.call c).2.schedule = s.schedule := by
        cases c with
        | declarePublic name => exact ⟨s.entries_declare _, s.schedule_declare _⟩
        | declareSecret name => exact ⟨s.entries_declare _, s.schedule_declare _⟩
        | append | appendLeveled | level => simp [Call.isPreparation] at hc
        | _ => exact ⟨rfl, rfl⟩
      rw [run, (ih hrest).1, (ih hrest).2]
      exact hcall

theorem lateHints_appendLeveled (s : System F) (es : List Entry) :
    s.lateHints (es.map Entry.appendLeveled) = [] := by
  induction es generalizing s with
  | nil => rfl
  | cons e es ih =>
      rw [List.map_cons, lateHints, ih]
      rfl

/-- After preparations and then only constraints, no wire has two producers. -/
theorem soleProducers_appendLeveled (config : Config) {setup : List (Call F)}
    (hsetup : ∀ c ∈ setup, c.isPreparation) (es : List Entry) :
    Schedule.SoleProducers
      (((empty config).run setup).levelings (es.map Entry.appendLeveled)) := by
  have hunproduced : ∀ w, ((empty config).run setup).schedule.wireLevel? w = none := by
    intro w
    rw [(run_preparations hsetup).2]
    exact Schedule.wireLevel?_empty w
  have hwhole : ((empty config).run setup).Whole fun _ => False :=
    fun _ _ _ _ _ _ w _ _ => hunproduced w
  refine (soleProducers_of_whole (valid_of_reachable ((reachable_empty config).run setup)) hwhole
    ?_ fun _ _ _ _ h => h).2
  intro i hi
  rw [lateHints_appendLeveled] at hi
  cases hi

/-! ## Plans of constraints that are told apart by their places -/

theorem exists_ofFn_of_map_fst {α β : Type} {n : Nat} {f : Fin n → α} {xs : List (α × β)}
    (h : xs.map Prod.fst = List.ofFn f) :
    ∃ g : Fin n → β, xs = List.ofFn fun i => (f i, g i) := by
  have hlength : xs.length = n := by simpa using congrArg List.length h
  subst hlength
  refine ⟨fun i => xs[i].2, List.ext_getElem (by simp) ?_⟩
  intro i hi _
  have hfst : (xs.map Prod.fst)[i]? = some (f ⟨i, hi⟩) := by
    rw [h, List.getElem?_ofFn, dif_pos hi]
  rw [List.getElem?_map, List.getElem?_eq_getElem hi] at hfst
  rw [List.getElem_ofFn]
  exact Prod.ext (Option.some.inj hfst) rfl

omit [Zero F] [One F] [Add F] [Neg F] [DecidableEq F] in
theorem map_snd_ofFn {n : Nat} (es : Fin n → Entry) (ds : Fin n → Leveled) :
    (List.ofFn fun i => (es i, ds i)).map Prod.snd = List.ofFn ds := by
  rw [List.map_ofFn]
  rfl

/-- Constraints that are all accepted after preparations come with a plan. -/
theorem exists_plan_of_accepts {config : Config} {setup : List (Call F)}
    (hsetup : ∀ c ∈ setup, c.isPreparation) {n : Nat} {es : Fin n → Entry}
    (haccepts : ((empty config).run setup).Accepts (List.ofFn fun i => (es i).appendLeveled)) :
    ∃ ds : Fin n → Leveled,
      ((empty config).run setup).Plan (List.ofFn fun i => (es i, ds i)) ∧
      Schedule.SoleProducers (List.ofFn ds) ∧
      ((empty config).run setup).Tracks
        (((empty config).run setup).run (List.ofFn fun i => (es i).appendLeveled))
        (List.ofFn ds) := by
  have hstart : ((empty config).run setup).Tracks ((empty config : System F).run setup)
      (([] : List (Entry × Leveled)).map Prod.snd) :=
    tracks_nil (run_preparations hsetup).1 (run_preparations hsetup).2
  have hcalls : (List.ofFn fun i => ((es i).appendLeveled : Call F)) =
      (List.ofFn es).map Entry.appendLeveled := by
    rw [List.map_ofFn]
    rfl
  rw [hcalls] at haccepts ⊢
  obtain ⟨steps, hentries, hplan, hlevelings, hend⟩ := hstart.exists_plan plan_nil haccepts
  obtain ⟨ds, rfl⟩ := exists_ofFn_of_map_fst hentries
  have hsole := soleProducers_appendLeveled config hsetup (List.ofFn es)
  rw [hlevelings, map_snd_ofFn] at hsole
  rw [List.nil_append, map_snd_ofFn] at hend
  exact ⟨ds, hplan, hsole, hend⟩

/-- After preparations, the constraints of a plan are all accepted. -/
theorem Plan.accepts {config : Config} {setup : List (Call F)}
    (hsetup : ∀ c ∈ setup, c.isPreparation) {n : Nat} {es : Fin n → Entry} {ds : Fin n → Leveled}
    (hplan : ((empty config).run setup).Plan (List.ofFn fun i => (es i, ds i))) :
    ((empty config).run setup).Accepts (List.ofFn fun i => (es i).appendLeveled) ∧
      ((empty config).run setup).Tracks
        (((empty config).run setup).run (List.ofFn fun i => (es i).appendLeveled))
        (List.ofFn ds) := by
  have hstart : ((empty config).run setup).Tracks ((empty config : System F).run setup)
      (([] : List (Entry × Leveled)).map Prod.snd) :=
    tracks_nil (run_preparations hsetup).1 (run_preparations hsetup).2
  rw [← List.nil_append (List.ofFn fun i => (es i, ds i))] at hplan
  have hend := hstart.accepts_of_plan hplan
  rw [List.nil_append, map_snd_ofFn, List.map_ofFn] at hend
  exact hend

omit [Zero F] [One F] [Add F] [Neg F] [DecidableEq F] in
theorem Plan.permute {s : System F} {n : Nat} {es : Fin n → Entry} {ds : Fin n → Leveled}
    (h : s.Plan (List.ofFn fun i => (es i, ds i))) (hs : s.hints.Valid s.layout)
    (hsole : Schedule.SoleProducers (List.ofFn ds)) (π : Equiv.Perm (Fin n))
    (hmono : ∀ i j, i ≤ j → (ds (π i)).level ≤ (ds (π j)).level) :
    s.Plan (List.ofFn fun i => (es (π i), ds (π i))) := by
  have hperm : (List.ofFn fun i => (es (π i), ds (π i))).Perm (List.ofFn fun i => (es i, ds i)) :=
    Equiv.Perm.ofFn_comp_perm π fun i => (es i, ds i)
  refine h.reorder hs ?_ hperm ?_
  · rw [map_snd_ofFn]
    exact hsole
  · rw [map_snd_ofFn (fun i => es (π i)) fun i => ds (π i)]
    exact List.pairwise_ofFn.mpr fun i j hlt => hmono i j (Nat.le_of_lt hlt)

/-- Constraints that are accepted after declarations and hints may be appended in any order along
which their levels do not decrease: all are accepted again, each gets the level that it had, and
every wire ends up at the same producing level. -/
theorem reorder_by_level (config : Config) (setup : List (Call F))
    (hsetup : ∀ c ∈ setup, c.isPreparation) {n : Nat} (es : Fin n → Entry)
    (haccepts : ((empty config).run setup).Accepts (List.ofFn fun i => (es i).appendLeveled))
    (π : Equiv.Perm (Fin n)) :
    let s := (empty config : System F).run (setup ++ List.ofFn fun i => (es i).appendLeveled)
    let t := (empty config : System F).run (setup ++ List.ofFn fun i => (es (π i)).appendLeveled)
    (∀ i j, i ≤ j → ∀ k l, s.schedule.level? (π i) = some k → s.schedule.level? (π j) = some l →
      k ≤ l) →
    ((empty config).run setup).Accepts (List.ofFn fun i => (es (π i)).appendLeveled) ∧
      (∀ i : Fin n, ∃ k, s.schedule.level? (π i) = some k ∧ t.schedule.level? i = some k) ∧
      ∀ w, t.schedule.wireLevel? w = s.schedule.wireLevel? w := by
  intro s t hmono
  obtain ⟨ds, hplan, hsole, hs⟩ := exists_plan_of_accepts hsetup haccepts
  rw [← run_append] at hs
  -- the i-th constraint was decided as `ds i`, in the old order and then in the new one
  have hlevel : ∀ i : Fin n, s.schedule.level? i = some (ds i).level := hs.level?_ofFn
  have hplan' := hplan.permute (valid_of_reachable ((reachable_empty config).run setup)) hsole π
    fun i j hle => hmono i j hle _ _ (hlevel (π i)) (hlevel (π j))
  obtain ⟨haccepts', ht⟩ := hplan'.accepts hsetup
  rw [← run_append] at ht
  refine ⟨haccepts', ?_, ?_⟩
  · intro i
    exact ⟨(ds (π i)).level, hlevel (π i), ht.level?_ofFn i⟩
  · intro w
    have hperm : (List.ofFn fun i => ds (π i)).Perm (List.ofFn ds) :=
      Equiv.Perm.ofFn_comp_perm π ds
    rw [ht.wireLevel?, hs.wireLevel?, hsole.wireLevel?_perm hperm]

/-- A hint with two outputs, which are read by different constraints. -/
def sharedHintSetup : List (Call (Residue 17)) :=
  [.declarePublic "x", .declareInternal, .declareInternal, .declareInternal, .declareInternal,
    .declareInternal, registerOver [2] [3, 4]]

/-- The second constraint runs the hint after the first, and the last reads from both others. -/
def sharedHintEntries : Fin 4 → Entry
  | 0 => ⟨{ left := ⟨[⟨.one, ⟨1⟩⟩, ⟨.one, ⟨2⟩⟩]⟩ }, none⟩
  | 1 => ⟨{ left := ⟨[⟨.one, ⟨3⟩⟩]⟩ }, none⟩
  | 2 => ⟨{ left := ⟨[⟨.one, ⟨5⟩⟩]⟩ }, none⟩
  | 3 => ⟨{ left := ⟨[⟨.one, ⟨5⟩⟩, ⟨.one, ⟨4⟩⟩, ⟨.one, ⟨6⟩⟩]⟩ }, none⟩

theorem ofFn_sharedHintEntries :
    (List.ofFn fun i => ((sharedHintEntries i).appendLeveled : Call (Residue 17))) =
      [appendOver [1, 2], appendOver [3], appendOver [5], appendOver [5, 4, 6]] := rfl

/-- The order in which the third constraint comes before the second. -/
def thirdFirst : Equiv.Perm (Fin 4) := Equiv.swap 1 2

theorem reorder_by_level_shared_hint :
    ((empty {}).run sharedHintSetup).Accepts
        (List.ofFn fun i => (sharedHintEntries (thirdFirst i)).appendLeveled) ∧
      ((empty {}).run (sharedHintSetup ++ List.ofFn fun i =>
        (sharedHintEntries (thirdFirst i)).appendLeveled)).schedule.level? 2 = some 1 := by
  have hsetup : ∀ c ∈ sharedHintSetup, c.isPreparation := by decide
  have haccepts : ((empty {}).run sharedHintSetup).Accepts
      (List.ofFn fun i => (sharedHintEntries i).appendLeveled) := by
    rw [ofFn_sharedHintEntries]
    exact accepts_iff.mpr (by cbv)
  have hlevel : ∀ cid, ((empty {}).run (sharedHintSetup ++ List.ofFn fun i =>
      (sharedHintEntries i).appendLeveled)).schedule.level? cid = (#[0, 1, 0, 2])[cid]? := by
    rw [ofFn_sharedHintEntries]
    have hlevels : ((empty {}).run (sharedHintSetup ++ [appendOver [1, 2], appendOver [3],
        appendOver [5], appendOver [5, 4, 6]])).schedule.constraintLevels = #[0, 1, 0, 2] := by cbv
    intro cid
    rw [Schedule.level?, hlevels]
  have hsorted : ∀ i j : Fin 4, i ≤ j → ∀ k ∈ (#[0, 1, 0, 2])[(thirdFirst i : Nat)]?,
      ∀ l ∈ (#[0, 1, 0, 2])[(thirdFirst j : Nat)]?, k ≤ l := by decide
  obtain ⟨haccepts', hsame, -⟩ := reorder_by_level {} sharedHintSetup hsetup sharedHintEntries
    haccepts thirdFirst fun i j hle k l hk hl =>
      hsorted i j hle k (by rw [← hlevel]; exact hk) l (by rw [← hlevel]; exact hl)
  obtain ⟨k, hk, hk'⟩ := hsame 2
  rw [hlevel] at hk
  refine ⟨haccepts', hk'.trans (hk.symm.trans ?_)⟩
  decide

end System

end RankOne

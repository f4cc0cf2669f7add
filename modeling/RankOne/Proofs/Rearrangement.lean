import Mathlib.Data.List.Perm.Basic
import RankOne.Proofs.Evaluation
import RankOne.Proofs.LeveledAppends

/-!
# Calls that are written down in another order

The terms of a sum may be written in any order, the factors of a constraint may be exchanged, and so
may the arguments and the outputs of a hint (`Call.Rearranged`). A sweep meets the wires in another
order then, and gathers the same (`System.Rearranged.sweep`). So calls that are rearranged are
accepted or turned down alike, and lead to systems that differ in the order of terms, arguments and
outputs alone: the layout, the coefficients and the schedule are equal (`System.rearranged_run`).
-/

namespace RankOne

/-! ## Rearranged constraints -/

/-- The same terms, up to their order. -/
def LinearExpression.Rearranged (e e' : LinearExpression) : Prop := e.terms.Perm e'.terms

theorem LinearExpression.Rearranged.perm_nonzeroWires {e e' : LinearExpression}
    (h : e.Rearranged e') : e.nonzeroWires.Perm e'.nonzeroWires :=
  (h.filter _).map _

namespace Constraint

variable {c c' : Constraint}

/-- The same sums, up to the order of their terms. The factors may be exchanged. -/
inductive Rearranged (c c' : Constraint) : Prop
  | straight : c.left.Rearranged c'.left → c.right.Rearranged c'.right →
      c.output.Rearranged c'.output → Rearranged c c'
  | crossed : c.left.Rearranged c'.right → c.right.Rearranged c'.left →
      c.output.Rearranged c'.output → Rearranged c c'

theorem Rearranged.refl (c : Constraint) : c.Rearranged c := .straight (.refl _) (.refl _) (.refl _)

theorem Rearranged.symm (h : c.Rearranged c') : c'.Rearranged c := by
  cases h with
  | straight hleft hright houtput => exact .straight hleft.symm hright.symm houtput.symm
  | crossed hleft hright houtput => exact .crossed hright.symm hleft.symm houtput.symm

theorem Rearranged.perm_terms (h : c.Rearranged c') : c.terms.Perm c'.terms := by
  cases h with
  | straight hleft hright houtput => exact (hleft.append hright).append houtput
  | crossed hleft hright houtput =>
      exact ((hleft.append hright).trans List.perm_append_comm).append houtput

theorem wires_eq_map_terms (c : Constraint) : c.wires = c.terms.map Term.wire := by
  simp only [wires, terms, LinearExpression.wires, List.map_append]

theorem nonzeroWires_eq_map_terms (c : Constraint) :
    c.nonzeroWires = (c.terms.filter fun t => !t.isZero).map Term.wire := by
  simp only [nonzeroWires, terms, LinearExpression.nonzeroWires, List.filter_append,
    List.map_append]

theorem Rearranged.mem_wires (h : c.Rearranged c') {w : Wire} : w ∈ c.wires ↔ w ∈ c'.wires := by
  rw [wires_eq_map_terms, wires_eq_map_terms]
  exact (h.perm_terms.map _).mem_iff

theorem Rearranged.perm_nonzeroWires (h : c.Rearranged c') :
    c.nonzeroWires.Perm c'.nonzeroWires := by
  rw [nonzeroWires_eq_map_terms, nonzeroWires_eq_map_terms]
  exact (h.perm_terms.filter _).map _

end Constraint

/-- A constraint that is rearranged, with the same source. -/
structure Entry.Rearranged (e e' : Entry) : Prop where
  constraint : e.constraint.Rearranged e'.constraint
  source : e'.source = e.source

theorem Entry.Rearranged.symm {e e' : Entry} (h : e.Rearranged e') : e'.Rearranged e :=
  ⟨h.constraint.symm, h.source.symm⟩

/-! ## Rearranged hints -/

namespace Hint

variable {h h' : Hint}

/-- The same computation. Its arguments, their terms and its outputs may come in another order. -/
structure Rearranged (h h' : Hint) : Prop where
  id : h'.id = h.id
  inputs : ∃ inputs, h.inputs.Perm inputs ∧
    List.Forall₂ LinearExpression.Rearranged inputs h'.inputs
  outputs : h.outputs.Perm h'.outputs

theorem Rearranged.refl (h : Hint) : h.Rearranged h where
  id := rfl
  inputs := ⟨h.inputs, .refl _, List.forall₂_same.mpr fun _ _ => .refl _⟩
  outputs := .refl _

theorem Rearranged.symm (hh : h.Rearranged h') : h'.Rearranged h := by
  obtain ⟨inputs, hperm, hterms⟩ := hh.inputs
  have hback : List.Forall₂ LinearExpression.Rearranged h'.inputs inputs :=
    (hterms.imp fun _ _ => List.Perm.symm).flip
  -- to permute the terms and then the arguments comes to the same as the other way round
  have hswap : Relation.Comp (List.Forall₂ LinearExpression.Rearranged) List.Perm h'.inputs
      h.inputs := ⟨inputs, hback, hperm.symm⟩
  rw [List.forall₂_comp_perm_eq_perm_comp_forall₂] at hswap
  exact ⟨hh.id.symm, hswap, hh.outputs.symm⟩

theorem Rearranged.mem_inputWires (hh : h.Rearranged h') {w : Wire} :
    w ∈ h.inputWires ↔ w ∈ h'.inputWires := by
  obtain ⟨inputs, hperm, hterms⟩ := hh.inputs
  have hwires : List.Forall₂ List.Perm (inputs.map LinearExpression.nonzeroWires)
      (h'.inputs.map LinearExpression.nonzeroWires) := by
    rw [List.forall₂_map_left_iff, List.forall₂_map_right_iff]
    exact hterms.imp fun _ _ => LinearExpression.Rearranged.perm_nonzeroWires
  have hall : h.inputWires.Perm h'.inputWires := by
    unfold inputWires
    rw [List.flatMap_def, List.flatMap_def]
    exact ((hperm.map _).flatten).trans (List.Perm.flatten_congr hwires)
  exact hall.mem_iff

theorem Rearranged.mem_outputs (hh : h.Rearranged h') {w : Wire} :
    w ∈ h.outputs ↔ w ∈ h'.outputs :=
  hh.outputs.mem_iff

end Hint

/-- A constraint or a hint that is handed over may be rearranged. All else is the same. -/
inductive Call.Rearranged {F : Type} : Call F → Call F → Prop
  | same (c : Call F) : Rearranged c c
  | register {h h' : Hint} : h.Rearranged h' → Rearranged (.register h) (.register h')
  | appendLeveled {c c' : Constraint} (source : Option Provenance) : c.Rearranged c' →
      Rearranged (.appendLeveled c source) (.appendLeveled c' source)

/-- The same role, where a hint may be rearranged. -/
inductive Role.Rearranged : Role → Role → Prop
  | known : Rearranged .known .known
  | produced (level : Nat) : Rearranged (.produced level) (.produced level)
  | hinted {i : Nat} {h h' : Hint} : h.Rearranged h' → Rearranged (.hinted i h) (.hinted i h')
  | free : Rearranged .free .free

/-! ## Outcomes that agree -/

/-- Both of two outcomes are faults, or their results stand in a relation. -/
inductive Agree {α β : Type} (R : α → β → Prop) : Except Fault α → Except Fault β → Prop
  | failed (fault fault' : Fault) : Agree R (.error fault) (.error fault')
  | succeeded {a b} : R a b → Agree R (.ok a) (.ok b)

theorem isOk_map {α β : Type} (f : α → β) (x : Except Fault α) : (x.map f).isOk = x.isOk := by
  cases x <;> rfl

/-! ## Rearranged systems -/

namespace Schedule

/-- What a leveling records of the outputs does not depend on their order. -/
theorem record_congr (s : Schedule) {d d' : Leveled} (hcid : d'.cid = d.cid)
    (hlevel : d'.level = d.level) (houtputs : ∀ w, w ∈ d'.outputs ↔ w ∈ d.outputs) :
    s.record d' = s.record d := by
  have hwires : s.wireLevels.assign d'.outputs d.level = s.wireLevels.assign d.outputs d.level := by
    refine WireMap.ext_get? fun w => ?_
    simp only [WireMap.get?_assign, houtputs]
  simp only [record, hcid, hlevel, hwires]

end Schedule

namespace System

variable {F : Type} {s t : System F}

/-- Two systems that differ in the order of terms, arguments and outputs, and in which factor of a
constraint comes first. -/
structure Rearranged (s t : System F) : Prop where
  config : t.config = s.config
  layout : t.layout = s.layout
  coeffs : t.coeffs = s.coeffs
  places : t.hints.places = s.hints.places
  hints : List.Forall₂ Hint.Rearranged s.hints.hints.toList t.hints.hints.toList
  entries : List.Forall₂ Entry.Rearranged s.entries.toList t.entries.toList
  schedule : t.schedule = s.schedule

namespace Rearranged

theorem empty (config : Config) : (System.empty config : System F).Rearranged (.empty config) :=
  ⟨rfl, rfl, rfl, rfl, .nil, .nil, rfl⟩

theorem symm (h : s.Rearranged t) : t.Rearranged s where
  config := h.config.symm
  layout := h.layout.symm
  coeffs := h.coeffs.symm
  places := h.places.symm
  hints := (h.hints.imp fun _ _ => Hint.Rearranged.symm).flip
  entries := (h.entries.imp fun _ _ => Entry.Rearranged.symm).flip
  schedule := h.schedule.symm

theorem size_hints (h : s.Rearranged t) : t.hints.hints.size = s.hints.hints.size :=
  h.hints.length_eq.symm

theorem size_entries (h : s.Rearranged t) : t.entries.size = s.entries.size :=
  h.entries.length_eq.symm

/-- Hints that are rearranged stand at the same places. -/
theorem exists_hint (h : s.Rearranged t) {i : Nat} {hint : Hint}
    (hget : s.hints.hints[i]? = some hint) :
    ∃ hint', t.hints.hints[i]? = some hint' ∧ hint.Rearranged hint' := by
  obtain ⟨hlt, hget⟩ := Array.getElem?_eq_some_iff.mp hget
  have hlt' : i < t.hints.hints.size := h.size_hints ▸ hlt
  refine ⟨t.hints.hints[i], Array.getElem?_eq_getElem hlt', ?_⟩
  rw [← hget]
  exact h.hints.get (by simpa using hlt) (by simpa using hlt')

/-! ### Sweeps -/

/-- A wire has the same role in both systems. -/
theorem exists_role (h : s.Rearranged t) {w : Wire} {r : Role} (hrole : s.role w = .ok r) :
    ∃ r', t.role w = .ok r' ∧ r.Rearranged r' := by
  obtain ⟨hdeclared, hstanding⟩ := role_eq_ok_iff.mp hrole
  rw [← h.layout] at hdeclared
  have hrole' : ∀ {r'}, t.Standing w r' → t.role w = .ok r' :=
    fun hstanding' => role_eq_ok_iff.mpr ⟨hdeclared, hstanding'⟩
  cases r with
  | known => exact ⟨_, hrole' (by rwa [Standing, h.layout]), .known⟩
  | produced level => exact ⟨_, hrole' (by rwa [Standing, h.layout, h.schedule]), .produced level⟩
  | hinted i hint =>
      obtain ⟨hinternal, hnone, hproducer⟩ := hstanding
      obtain ⟨hplace, hget⟩ := HintRegistry.producer?_eq_some_iff.mp hproducer
      obtain ⟨hint', hget', hhint⟩ := h.exists_hint hget
      have hplace' : t.hints.place? w = some i := by rwa [HintRegistry.place?, h.places]
      refine ⟨.hinted i hint', hrole' ⟨?_, ?_, ?_⟩, .hinted hhint⟩
      · rwa [h.layout]
      · rwa [h.schedule]
      · exact HintRegistry.producer?_eq_some_iff.mpr ⟨hplace', hget'⟩
  | free =>
      obtain ⟨hinternal, hnone, hproducer⟩ := hstanding
      refine ⟨.free, hrole' ⟨?_, ?_, ?_⟩, .free⟩
      · rwa [h.layout]
      · rwa [h.schedule]
      · -- a hint for the wire in one system would be one in the other
        refine Option.eq_none_iff_forall_ne_some.mpr ?_
        rintro ⟨i, hint⟩ hsome
        obtain ⟨hplace, hget⟩ := HintRegistry.producer?_eq_some_iff.mp hsome
        obtain ⟨hint', hget', -⟩ := h.symm.exists_hint hget
        rw [HintRegistry.place?, h.places] at hplace
        rw [HintRegistry.producer?_eq_some_iff.mpr ⟨hplace, hget'⟩] at hproducer
        cases hproducer

variable {reads reads' : List Wire} {v v' : Sweep}

/-- What some reads lead to in one system, they lead to in the other. -/
theorem leadsTo (h : s.Rearranged t) (hreads : ∀ w ∈ reads, w ∈ reads') {w : Wire}
    (hw : s.LeadsTo reads w) : t.LeadsTo reads' w := by
  induction hw with
  | read hmem => exact .read (hreads _ hmem)
  | argument _ hrole harg ih =>
      obtain ⟨r', hrole', hr⟩ := h.exists_role hrole
      cases hr with
      | hinted hhint => exact .argument ih hrole' (hhint.mem_inputWires.mp harg)

/-- What is gathered in one system is within what is gathered in the other. -/
theorem within (h : s.Rearranged t) (hreads : ∀ w ∈ reads, w ∈ reads')
    (hv : s.Gathers reads v) (hv' : t.Gathers reads' v') : v.Within v' := by
  have hmet : ∀ {w r}, s.LeadsTo reads w → s.role w = .ok r →
      ∃ r', t.role w = .ok r' ∧ r.Rearranged r' ∧ v'.Met t w := by
    intro w r hw hrole
    obtain ⟨r', hrole', hr⟩ := h.exists_role hrole
    exact ⟨r', hrole', hr, hv'.met w (h.leadsTo hreads hw)⟩
  have hexpanded : ∀ i ∈ v.expanded, i ∈ v'.expanded := by
    intro i hi
    obtain ⟨w, hint, hw, hrole⟩ := hv.expanded i hi
    obtain ⟨r', hrole', hr, hmet'⟩ := hmet hw hrole
    cases hr
    rw [Sweep.Met, hrole'] at hmet'
    exact hmet'
  refine ⟨?_, ?_, hexpanded⟩
  · rcases hv.level with hzero | ⟨w, l, hw, hrole, hlevel⟩
    · omega
    · obtain ⟨r', hrole', hr, hmet'⟩ := hmet hw hrole
      cases hr
      rw [Sweep.Met, hrole'] at hmet'
      omega
  · intro u hu
    rcases hv.outputs u hu with ⟨hw, hrole⟩ | ⟨i, hi, hint, hget, hout⟩
    · obtain ⟨r', hrole', hr, hmet'⟩ := hmet hw hrole
      cases hr
      rwa [Sweep.Met, hrole'] at hmet'
    · obtain ⟨hint', hget', hhint⟩ := h.exists_hint hget
      exact hv'.hint_outputs i (hexpanded i hi) hint' hget' u (hhint.mem_outputs.mp hout)

end Rearranged

/-- A sweep comes to its end exactly if it starts from declared wires. -/
theorem exists_sweep_iff (hs : s.hints.Exact s.layout) {reads : List Wire} :
    (∃ v, s.sweep reads = .ok v) ↔ ∀ w ∈ reads, w.index < s.layout.wireCount := by
  refine ⟨?_, exists_sweep_of_declared hs⟩
  rintro ⟨v, hv⟩ w hw
  obtain ⟨r, hrole⟩ := (gathers_of_sweep hv).exists_role (.read hw)
  exact (role_eq_ok_iff.mp hrole).1

namespace Rearranged

/-- Sweeps over the same wires gather the same. -/
theorem sweep (h : s.Rearranged t) (hs : s.hints.Exact s.layout) (ht : t.hints.Exact t.layout)
    {reads reads' : List Wire} (hreads : ∀ w, w ∈ reads ↔ w ∈ reads') :
    Agree (fun v v' : Sweep => v'.level = v.level ∧ ∀ w, w ∈ v'.outputs ↔ w ∈ v.outputs)
      (s.sweep reads) (t.sweep reads') := by
  have hdeclared : (∀ w ∈ reads', w.index < t.layout.wireCount) ↔
      ∀ w ∈ reads, w.index < s.layout.wireCount := by
    rw [h.layout]
    exact forall_congr' fun w => by rw [hreads]
  rw [← exists_sweep_iff hs, ← exists_sweep_iff ht] at hdeclared
  cases hv : s.sweep reads with
  | error fault =>
      cases hv' : t.sweep reads' with
      | error fault' => exact .failed _ _
      | ok v' =>
          obtain ⟨v, hok⟩ := hdeclared.mp ⟨v', hv'⟩
          rw [hv] at hok
          cases hok
  | ok v =>
      obtain ⟨v', hv'⟩ := hdeclared.mpr ⟨v, hv⟩
      have hle := h.within (fun w => (hreads w).mp) (gathers_of_sweep hv) (gathers_of_sweep hv')
      have hge := h.symm.within (fun w => (hreads w).mpr) (gathers_of_sweep hv')
        (gathers_of_sweep hv)
      rw [hv']
      exact .succeeded ⟨Nat.le_antisymm hge.level hle.level,
        fun w => ⟨hge.outputs w, hle.outputs w⟩⟩

end Rearranged

/-! ### Calls -/

/-- Two operations are both carried out or both turned down, and leave rearranged systems. -/
structure Alike {α : Type} (x y : Except Fault α × System F) : Prop where
  isOk : x.1.isOk = y.1.isOk
  after : x.2.Rearranged y.2

theorem Alike.reply {α : Type} {x y : Except Fault α × System F} (h : Alike x y)
    (answer : α → Answer) : Alike (reply answer x) (reply answer y) where
  isOk := (isOk_map _ _).trans (h.isOk.trans (isOk_map _ _).symm)
  after := h.after

namespace Rearranged

/-- Levels that are asked for apart are given or refused alike. -/
theorem level (h : s.Rearranged t) (hs : s.hints.Exact s.layout) (ht : t.hints.Exact t.layout)
    {reads reads' : List Wire} (hreads : ∀ w, w ∈ reads ↔ w ∈ reads') (cid : Nat) :
    Alike (s.level cid reads) (t.level cid reads') := by
  have hsweep := h.sweep hs ht hreads
  unfold System.level
  rw [h.schedule, h.size_entries]
  generalize s.sweep reads = x at hsweep ⊢
  generalize t.sweep reads' = y at hsweep ⊢
  split
  · exact ⟨rfl, h⟩
  · split
    · exact ⟨rfl, h⟩
    · cases hsweep with
      | failed fault fault' => exact ⟨rfl, h⟩
      | succeeded hv =>
          refine ⟨rfl, h.config, h.layout, h.coeffs, h.places, h.hints, h.entries, ?_⟩
          exact Schedule.record_congr _ rfl hv.1 hv.2

/-- Hints are accepted or turned down alike. -/
theorem register (h : s.Rearranged t) {hint hint' : Hint} (hhint : hint.Rearranged hint') :
    Alike (s.register hint) (t.register hint') := by
  have hcheck : s.hints.check s.layout hint = .ok () ↔ t.hints.check t.layout hint' = .ok () := by
    simp only [HintRegistry.check_eq_ok_iff, h.layout, HintRegistry.place?, h.places,
      hhint.outputs.nodup_iff, hhint.mem_inputWires, hhint.mem_outputs]
  rcases s.register_cases hint with ⟨fault, hrefused, hregister⟩ | ⟨haccepted, hregister⟩
  · rcases t.register_cases hint' with ⟨fault', -, hregister'⟩ | ⟨haccepted', -⟩
    · rw [hregister, hregister']
      exact ⟨rfl, h⟩
    · rw [hcheck.mpr haccepted'] at hrefused
      cases hrefused
  · have hregister' := register_eq_ok_iff.mpr ⟨hcheck.mp haccepted, rfl, rfl⟩
    have hplaces : t.hints.places.assign hint'.outputs t.hints.hints.size =
        s.hints.places.assign hint.outputs s.hints.hints.size := by
      refine WireMap.ext_get? fun w => ?_
      simp only [WireMap.get?_assign, h.places, h.size_hints, hhint.mem_outputs]
    rw [hregister, hregister']
    refine ⟨rfl, h.config, h.layout, h.coeffs, hplaces, ?_, h.entries, h.schedule⟩
    simpa [HintRegistry.push] using List.rel_append h.hints (.cons hhint .nil)

theorem append (h : s.Rearranged t) {c c' : Constraint} (source : Option Provenance)
    (hc : c.Rearranged c') : (s.append c source).2.Rearranged (t.append c' source).2 := by
  have hentry : Entry.Rearranged ⟨c, source⟩ ⟨c', source⟩ := ⟨hc, rfl⟩
  refine ⟨h.config, h.layout, h.coeffs, h.places, h.hints, ?_, h.schedule⟩
  simpa [System.append] using List.rel_append h.entries (.cons hentry .nil)

/-- Constraints are accepted or turned down alike, with a level or without one. -/
theorem appendLeveled (h : s.Rearranged t) (hs : s.hints.Exact s.layout)
    (ht : t.hints.Exact t.layout) {c c' : Constraint} (source : Option Provenance)
    (hc : c.Rearranged c') :
    Alike (s.appendLeveled c source) (t.appendLeveled c' source) := by
  have hdeclared : (∀ w ∈ c'.wires, w.index < t.layout.wireCount) ↔
      ∀ w ∈ c.wires, w.index < s.layout.wireCount := by
    simp only [h.layout, hc.mem_wires]
  by_cases hwires : ∀ w ∈ c.wires, w.index < s.layout.wireCount
  · rw [appendLeveled_of_declared source hwires,
      appendLeveled_of_declared source (hdeclared.mpr hwires), h.size_entries]
    exact (h.append source hc).level hs ht (fun w => hc.mem_wires) s.entries.size
  · obtain ⟨w, hw⟩ := Layout.exists_firstUndeclared hwires
    obtain ⟨w', hw'⟩ := Layout.exists_firstUndeclared (mt hdeclared.mp hwires)
    rw [appendLeveled_of_undeclared source hw, appendLeveled_of_undeclared source hw']
    exact ⟨rfl, h⟩

/-- Declarations go by the layout alone. -/
theorem declare (h : s.Rearranged t) (x : Except Fault (Wire × Layout)) :
    Alike (s.declare x) (t.declare x) := by
  cases x with
  | error fault => exact ⟨rfl, h⟩
  | ok wl => exact ⟨rfl, h.config, rfl, h.coeffs, h.places, h.hints, h.entries, h.schedule⟩

variable [Zero F] [One F] [Add F] [Neg F] [DecidableEq F]

theorem intern (h : s.Rearranged t) (value : F) :
    (s.intern value).2.Rearranged (t.intern value).2 := by
  refine ⟨h.config, h.layout, ?_, h.places, h.hints, h.entries, h.schedule⟩
  show (t.coeffs.intern value).2 = (s.coeffs.intern value).2
  rw [h.coeffs]

/-- Calls that are rearranged are accepted or turned down alike. -/
theorem call (h : s.Rearranged t) (hs : s.hints.Exact s.layout) (ht : t.hints.Exact t.layout)
    {c c' : Call F} (hc : c.Rearranged c') :
    Alike (s.call c) (t.call c') := by
  cases hc with
  | register hhint => exact (h.register hhint).reply .hint
  | appendLeveled source hc => exact (h.appendLeveled hs ht source hc).reply .leveled
  | same =>
      cases c with
      | declarePublic name =>
          rw [System.call, System.call, System.declarePublic, System.declarePublic, h.layout]
          exact (h.declare _).reply .wire
      | declareSecret name =>
          rw [System.call, System.call, System.declareSecret, System.declareSecret, h.layout]
          exact (h.declare _).reply .wire
      | declareInternal =>
          refine ⟨rfl, h.config, ?_, h.coeffs, h.places, h.hints, h.entries, h.schedule⟩
          show t.layout.declareInternal.2 = s.layout.declareInternal.2
          rw [h.layout]
      | intern value => exact ⟨rfl, h.intern value⟩
      | term value wire => exact ⟨rfl, h.intern value⟩
      | register hint => exact (h.register (.refl hint)).reply .hint
      | append constraint source => exact ⟨rfl, h.append source (.refl constraint)⟩
      | appendLeveled constraint source =>
          exact (h.appendLeveled hs ht source (.refl constraint)).reply .leveled
      | level cid reads => exact (h.level hs ht (fun _ => .rfl) cid).reply .leveled

end Rearranged

/-! ## Runs -/

variable [Zero F] [One F] [Add F] [Neg F] [DecidableEq F]

/-- Runs of rearranged calls are accepted or turned down alike, call by call, and lead to rearranged
systems. -/
theorem rearranged_run (h : s.Rearranged t) (hs : s.hints.Exact s.layout)
    (ht : t.hints.Exact t.layout) {calls calls' : List (Call F)}
    (hcalls : List.Forall₂ Call.Rearranged calls calls') :
    List.Forall₂ (fun a b => a.isOk = b.isOk) (s.answers calls) (t.answers calls') ∧
      (s.run calls).Rearranged (t.run calls') := by
  induction hcalls generalizing s t with
  | nil => exact ⟨.nil, h⟩
  | cons hc _ ih =>
      obtain ⟨hok, hafter⟩ := h.call hs ht hc
      obtain ⟨hanswers, hrun⟩ :=
        ih hafter ((s.effect_of_call _).exact hs) ((t.effect_of_call _).exact ht)
      exact ⟨.cons hok hanswers, hrun⟩

end System

end RankOne

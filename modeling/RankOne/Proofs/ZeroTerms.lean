import RankOne.Proofs.Freedom
import RankOne.Proofs.RearrangedVerdicts

/-!
# Terms with the coefficient zero

A zero term adds nothing to a sum, as long as its wire is declared
(`Constraint.holds_withoutZeros`), and a coverage report does not look at it
(`System.reportCoverage_withoutZeros`). A constraint without its zero terms reads fewer wires, so it
is accepted where the whole one is, with another level perhaps (`System.call_withoutZeros`). So
front-ends that store constraints only together with their levels may leave all zero terms out:
reports and verdicts stay the same, up to the text of a constraint that is not met
(`System.zero_terms_inert`).
-/

namespace RankOne

/-! ## Constraints without zero terms -/

/-- A sum without its zero terms. -/
def LinearExpression.withoutZeros (e : LinearExpression) : LinearExpression :=
  ⟨e.terms.filter fun t => !t.isZero⟩

namespace Constraint

/-- A constraint without its zero terms. -/
def withoutZeros (c : Constraint) : Constraint :=
  ⟨c.left.withoutZeros, c.right.withoutZeros, c.output.withoutZeros⟩

/-- What is left to read is what the constraint constrains. -/
theorem wires_withoutZeros (c : Constraint) : c.withoutZeros.wires = c.nonzeroWires := rfl

theorem nonzeroWires_withoutZeros (c : Constraint) :
    c.withoutZeros.nonzeroWires = c.nonzeroWires := by
  simp only [nonzeroWires, withoutZeros, LinearExpression.nonzeroWires,
    LinearExpression.withoutZeros, List.filter_filter, Bool.and_self]

end Constraint

/-- A stored constraint without its zero terms, with the same source. -/
def Entry.withoutZeros (e : Entry) : Entry := ⟨e.constraint.withoutZeros, e.source⟩

namespace Call

variable {F : Type}

/-- A call that hands its constraint over without zero terms. -/
def withoutZeros : Call F → Call F
  | .append c source => .append c.withoutZeros source
  | .appendLeveled c source => .appendLeveled c.withoutZeros source
  | c => c

theorem withoutZeros_ne_append (c : Call F) (h : ∀ constraint source, c ≠ .append constraint source)
    (constraint : Constraint) (source : Option Provenance) :
    c.withoutZeros ≠ .append constraint source := by
  cases c with
  | append constraint' source' => exact absurd rfl (h constraint' source')
  | declarePublic | declareSecret | declareInternal | intern | term | register | appendLeveled
  | level => exact nofun

theorem exists_appendLeveled_of_withoutZeros (c : Call F)
    (h : ∃ constraint source, c.withoutZeros = .appendLeveled constraint source) :
    ∃ constraint source, c = .appendLeveled constraint source := by
  obtain ⟨constraint, source, h⟩ := h
  cases c with
  | appendLeveled constraint' source' => exact ⟨constraint', source', rfl⟩
  | declarePublic | declareSecret | declareInternal | intern | term | register | append
  | level => cases h

end Call

/-! ## Values -/

section Field

variable {F : Type} [Field F] {coeffs : CoeffTable F} {witness : Array F}

/-- A zero term has the value zero if the witness has one for its wire. -/
theorem Term.evaluate_of_isZero {t : Term} (h : t.isZero = true)
    (hwire : t.wire.index < witness.size) : t.evaluate coeffs witness = .ok 0 := by
  have hcoeff : t.coeff = .zero := of_decide_eq_true h
  have hvalue : t.HasValue coeffs witness.size := by
    refine ⟨?_, hwire⟩
    rw [hcoeff, CoeffTable.size]
    exact Nat.zero_lt_succ _
  rw [Term.evaluate_of_hasValue hvalue, Term.value_of_isZero h]

namespace LinearExpression

theorem accumulate_withoutZeros (sum : F) {ts : List Term}
    (h : ∀ t ∈ ts, t.wire.index < witness.size) :
    accumulate coeffs witness sum (ts.filter fun t => !t.isZero) =
      accumulate coeffs witness sum ts := by
  induction ts generalizing sum with
  | nil => rfl
  | cons t rest ih =>
      obtain ⟨ht, hrest⟩ := List.forall_mem_cons.mp h
      cases hzero : t.isZero with
      | true =>
          rw [List.filter_cons_of_neg (by simp [hzero]), ih sum hrest, accumulate,
            Term.evaluate_of_isZero hzero ht]
          simp only [add_zero]
      | false =>
          rw [List.filter_cons_of_pos (by simp [hzero]), accumulate, accumulate]
          cases t.evaluate coeffs witness with
          | error fault => rfl
          | ok value => exact ih (sum + value) hrest

theorem evaluate_withoutZeros {e : LinearExpression}
    (h : ∀ t ∈ e.terms, t.wire.index < witness.size) :
    e.withoutZeros.evaluate coeffs witness = e.evaluate coeffs witness :=
  accumulate_withoutZeros 0 h

end LinearExpression

/-- Zero terms make no difference to whether a constraint holds, and to its fault if it has no
value. -/
theorem Constraint.holds_withoutZeros [DecidableEq F] {c : Constraint}
    (h : ∀ t ∈ c.terms, t.wire.index < witness.size) :
    c.withoutZeros.holds coeffs witness = c.holds coeffs witness := by
  obtain ⟨hleft, hright, houtput⟩ := forall_mem_terms.mp h
  simp only [holds, withoutZeros, LinearExpression.evaluate_withoutZeros hleft,
    LinearExpression.evaluate_withoutZeros hright, LinearExpression.evaluate_withoutZeros houtput]

end Field

/-- The same verdict, up to the text of a constraint that is not met. -/
inductive UpToText : Except Fault Unit → Except Fault Unit → Prop
  | same (verdict : Except Fault Unit) : UpToText verdict verdict
  | unsatisfied (cid : Nat) (text text' : String) (source : Option Provenance) :
      UpToText (.error (.unsatisfied cid text source)) (.error (.unsatisfied cid text' source))

/-- The same answer. The levels of a constraint may differ, its id may not. -/
inductive SameAnswer : Except Fault Answer → Except Fault Answer → Prop
  | same (answer : Except Fault Answer) : SameAnswer answer answer
  | leveled {d d' : Leveled} : d'.cid = d.cid →
      SameAnswer (.ok (.leveled d)) (.ok (.leveled d'))

theorem SameAnswer.isOk_eq {answer answer' : Except Fault Answer} (h : SameAnswer answer answer') :
    answer'.isOk = answer.isOk := by
  cases h <;> rfl

namespace System

variable {F : Type}

/-- A system whose constraints have lost their zero terms, with the schedule that they have now. -/
def withoutZeros (s : System F) (schedule : Schedule) : System F :=
  { s with entries := s.entries.map Entry.withoutZeros, schedule := schedule }

variable {s : System F} {schedule : Schedule}

theorem withoutZeros_empty (config : Config) :
    (empty config : System F).withoutZeros {} = empty config := by
  rw [withoutZeros, empty, Array.map_empty]

theorem constraints_withoutZeros :
    (s.withoutZeros schedule).constraints = s.constraints.map Constraint.withoutZeros := by
  simp only [constraints, withoutZeros, Array.toList_map, List.map_map]
  rfl

/-! ## Reports -/

theorem scan_withoutZeros (s : System F) (schedule : Schedule) (cs : List Constraint) (t : Tally) :
    (s.withoutZeros schedule).scan (cs.map Constraint.withoutZeros) t = s.scan cs t := by
  have hnote : ∀ ws t, (s.withoutZeros schedule).noteAll ws t = s.noteAll ws t := by
    intro ws t
    rw [noteAll_eq, noteAll_eq]
    rfl
  induction cs generalizing t with
  | nil => rfl
  | cons c rest ih =>
      simp only [List.map_cons, scan, Constraint.nonzeroWires_withoutZeros, hnote, ih]

/-- A report does not look at zero terms. -/
theorem reportCoverage_withoutZeros :
    (s.withoutZeros schedule).reportCoverage = s.reportCoverage := by
  have hlayout : (s.withoutZeros schedule).layout = s.layout := rfl
  have hhints : (s.withoutZeros schedule).hints = s.hints := rfl
  have hjudge : (s.withoutZeros schedule).judge = s.judge := rfl
  simp only [reportCoverage, constraints_withoutZeros, scan_withoutZeros, hlayout, hhints, hjudge]

/-! ## Verdicts -/

section Verdicts

variable [Field F] [DecidableEq F] [ToString F] {witness : Array F}

theorem checkEntries_withoutZeros {es : List Entry}
    (h : ∀ e ∈ es, ∀ t ∈ e.constraint.terms, t.wire.index < witness.size) (cid : Nat) :
    UpToText (s.checkEntries witness cid es)
      ((s.withoutZeros schedule).checkEntries witness cid (es.map Entry.withoutZeros)) := by
  induction es generalizing cid with
  | nil => exact .same _
  | cons e rest ih =>
      obtain ⟨he, hrest⟩ := List.forall_mem_cons.mp h
      have hholds : e.withoutZeros.constraint.holds (s.withoutZeros schedule).coeffs witness =
          e.constraint.holds s.coeffs witness := Constraint.holds_withoutZeros he
      rw [List.map_cons, checkEntries, checkEntries, hholds]
      cases e.constraint.holds s.coeffs witness with
      | error fault => exact .same _
      | ok met =>
          cases met with
          | false => exact .unsatisfied _ _ _ _
          | true => exact ih hrest (cid + 1)

/-- A witness that has a value for each wire has one for each zero term. -/
theorem checkWitness_withoutZeros (hs : s.Settled) (witness : Array F) :
    UpToText (s.checkWitness witness) ((s.withoutZeros schedule).checkWitness witness) := by
  have hlayout : (s.withoutZeros schedule).layout = s.layout := rfl
  unfold checkWitness
  rw [hlayout]
  split
  · exact .same _
  · rename_i hsize
    split
    · exact .same _
    · have hdeclared : ∀ e ∈ s.entries.toList, ∀ t ∈ e.constraint.terms,
          t.wire.index < witness.size := by
        intro e he t ht
        rw [Decidable.not_not.mp hsize]
        exact hs.declared_terms he t ht
      have hentries : (s.withoutZeros schedule).entries.toList =
          s.entries.toList.map Entry.withoutZeros := Array.toList_map
      rw [hentries]
      exact checkEntries_withoutZeros hdeclared 0

end Verdicts

/-! ## Calls -/

/-- A declaration does not see the zero terms of the stored constraints. -/
theorem declare_withoutZeros (result : Except Fault (Wire × Layout)) :
    (s.withoutZeros schedule).declare result =
      ((s.declare result).1, (s.declare result).2.withoutZeros schedule) := by
  cases result <;> rfl

/-- Where a constraint is accepted, it is accepted without its zero terms. -/
theorem appendLeveled_withoutZeros (ht : (s.withoutZeros schedule).Settled)
    (hexact : s.hints.Exact s.layout) {c : Constraint} {source : Option Provenance} {d : Leveled}
    {after : System F} (h : s.appendLeveled c source = (.ok d, after)) :
    ∃ d' schedule', d'.cid = d.cid ∧
      (s.withoutZeros schedule).appendLeveled c.withoutZeros source =
        (.ok d', after.withoutZeros schedule') := by
  obtain ⟨hwires, -, v, -, rfl, rfl⟩ := appendLeveled_eq_ok_iff.mp h
  -- what is left to read is declared as well
  have hwires' : ∀ w ∈ c.withoutZeros.wires, w.index < s.layout.wireCount := by
    intro w hw
    rw [Constraint.wires_withoutZeros] at hw
    exact hwires w (Constraint.mem_wires_of_mem_nonzeroWires hw)
  obtain ⟨d', after', h'⟩ := exists_appendLeveled_of_declared (s := s.withoutZeros schedule) hexact
    source hwires' ht.leveled
  obtain ⟨-, -, v', -, hd', rfl⟩ := appendLeveled_eq_ok_iff.mp h'
  have hcid : d'.cid = s.entries.size := by
    rw [hd']
    exact Array.size_map
  have hentries : (s.entries.push ⟨c, source⟩).map Entry.withoutZeros =
      (s.entries.map Entry.withoutZeros).push ⟨c.withoutZeros, source⟩ := Array.map_push
  refine ⟨d', schedule.record d', hcid, h'.trans ?_⟩
  simp only [withoutZeros, hentries]

variable [Zero F] [One F] [Add F] [Neg F] [DecidableEq F]

/-- A call is answered alike if it hands over no zero terms and none are stored, and none are stored
then. -/
theorem call_withoutZeros (hs : s.Settled) (ht : (s.withoutZeros schedule).Settled)
    (hexact : s.hints.Exact s.layout) {c : Call F}
    (hc : ∀ constraint source, c ≠ .append constraint source)
    (haccepted : (∃ constraint source, c = .appendLeveled constraint source) →
      (s.call c).1.isOk = true) :
    SameAnswer (s.call c).1 ((s.withoutZeros schedule).call c.withoutZeros).1 ∧
      ∃ schedule', ((s.withoutZeros schedule).call c.withoutZeros).2 =
        (s.call c).2.withoutZeros schedule' := by
  have halike : (s.withoutZeros schedule).call c.withoutZeros =
      ((s.call c).1, (s.call c).2.withoutZeros schedule) →
      SameAnswer (s.call c).1 ((s.withoutZeros schedule).call c.withoutZeros).1 ∧
        ∃ schedule', ((s.withoutZeros schedule).call c.withoutZeros).2 =
          (s.call c).2.withoutZeros schedule' := by
    intro h
    rw [h]
    exact ⟨.same _, schedule, rfl⟩
  cases c with
  | declarePublic name =>
      exact halike (congrArg (reply .wire) (declare_withoutZeros (s.layout.declarePublic name)))
  | declareSecret name =>
      exact halike (congrArg (reply .wire) (declare_withoutZeros (s.layout.declareSecret name)))
  | declareInternal => exact halike rfl
  | intern value => exact halike rfl
  | term value wire => exact halike rfl
  | register hint => exact halike rfl
  | append constraint source => exact absurd rfl (hc constraint source)
  | appendLeveled constraint source =>
      have hok := haccepted ⟨constraint, source, rfl⟩
      cases h : s.appendLeveled constraint source with
      | mk answer after =>
          cases answer with
          | error fault =>
              have hcall : s.call (.appendLeveled constraint source) = (.error fault, after) :=
                congrArg (reply .leveled) h
              rw [hcall] at hok
              cases hok
          | ok d =>
              obtain ⟨d', schedule', hcid, h'⟩ := appendLeveled_withoutZeros ht hexact h
              simp only [call, Call.withoutZeros, h, h']
              exact ⟨.leveled hcid, schedule', rfl⟩
  | level cid reads =>
      have hcount : (s.withoutZeros schedule).constraintCount = s.constraintCount :=
        Array.size_map
      apply halike
      simp only [call, Call.withoutZeros, hs.level_eq_error, ht.level_eq_error, hcount]
      rfl

/-! ## Runs -/

/-- Every constraint that is handed over with a demand for its level gets it. -/
def AcceptsConstraints (s : System F) (calls : List (Call F)) : Prop :=
  List.Forall₂ (fun c answer => (∃ constraint source, c = .appendLeveled constraint source) →
    answer.isOk = true) calls (s.answers calls)

/-- What holds of one call holds of all calls of a run. -/
theorem run_withoutZeros (hs : s.Settled) (ht : (s.withoutZeros schedule).Settled)
    (hexact : s.hints.Exact s.layout) {calls : List (Call F)} (hleveled : AppendsLeveled calls)
    (haccepted : s.AcceptsConstraints calls) :
    (s.withoutZeros schedule).AcceptsConstraints (calls.map Call.withoutZeros) ∧
      List.Forall₂ SameAnswer (s.answers calls)
        ((s.withoutZeros schedule).answers (calls.map Call.withoutZeros)) ∧
      ∃ schedule', (s.withoutZeros schedule).run (calls.map Call.withoutZeros) =
        (s.run calls).withoutZeros schedule' := by
  induction calls generalizing s schedule with
  | nil => exact ⟨.nil, .nil, schedule, rfl⟩
  | cons c rest ih =>
      obtain ⟨hc, hrest⟩ := appendsLeveled_cons.mp hleveled
      obtain ⟨hok, hoks⟩ := List.forall₂_cons.mp haccepted
      obtain ⟨hanswer, schedule', hafter⟩ := call_withoutZeros hs ht hexact hc hok
      have ht' : ((s.call c).2.withoutZeros schedule').Settled := by
        rw [← hafter]
        exact ht.call hexact (c.withoutZeros_ne_append hc)
      obtain ⟨haccepts, hanswers, hrun⟩ :=
        ih (hs.call hexact hc) ht' ((s.effect_of_call c).exact hexact) hrest hoks
      rw [← hafter] at haccepts hanswers hrun
      refine ⟨.cons ?_ haccepts, .cons hanswer hanswers, hrun⟩
      intro happends
      rw [hanswer.isOk_eq]
      exact hok (c.exists_appendLeveled_of_withoutZeros happends)

section Field

variable {F : Type} [Field F] [DecidableEq F] [ToString F]

/-- A front-end that stores every constraint together with its level may leave out all zero terms,
if its constraints are accepted with them. They are accepted without them then. Each call is
answered alike, except that a constraint may get another level. The report at the end is the same,
with the same warnings, and so is the verdict on each witness, except for the text of a constraint
that is not met. -/
theorem zero_terms_inert (config : Config) {calls : List (Call F)}
    (hleveled : AppendsLeveled calls) (haccepted : (empty config).AcceptsConstraints calls) :
    let erased := calls.map Call.withoutZeros
    let s := (empty config).run calls
    let t := (empty config).run erased
    (empty config).AcceptsConstraints erased ∧
      List.Forall₂ SameAnswer ((empty config).answers calls) ((empty config).answers erased) ∧
      t.reportCoverage = s.reportCoverage ∧
      ∀ witness, UpToText (s.checkWitness witness) (t.checkWitness witness) := by
  intro erased s t
  have hempty : (empty config : System F).hints.Exact (empty config : System F).layout :=
    HintRegistry.exact_empty _
  have hsettled : ((empty config : System F).withoutZeros {}).Settled := by
    rw [withoutZeros_empty]
    exact settled_empty config
  have hrun := run_withoutZeros (settled_empty config) hsettled hempty hleveled haccepted
  rw [withoutZeros_empty] at hrun
  obtain ⟨haccepts, hanswers, schedule, ht : t = s.withoutZeros schedule⟩ := hrun
  have hs : s.Settled := settled_run (settled_empty config) hempty hleveled
  refine ⟨haccepts, hanswers, ?_, ?_⟩
  · rw [ht]
    exact reportCoverage_withoutZeros
  · intro witness
    rw [ht]
    exact checkWitness_withoutZeros hs witness

end Field

/-- Zero terms of an input, of a wire that another constraint produces, of a hint's output and of a
wire that occurs nowhere else. Without them the second constraint is `0 * 0 == 0`. -/
def paddedRun : List (Call (Residue 17)) :=
  [.declarePublic "x", .declareSecret "y", .declareInternal, .declareInternal, .declareInternal,
    registerOver [1] [4],
    .appendLeveled ⟨⟨[⟨.one, ⟨1⟩⟩]⟩, ⟨[⟨.zero, ⟨2⟩⟩, ⟨.one, ⟨1⟩⟩]⟩, ⟨[⟨.one, ⟨3⟩⟩]⟩⟩ none,
    .appendLeveled ⟨⟨[⟨.zero, ⟨3⟩⟩]⟩, ⟨[⟨.zero, ⟨5⟩⟩, ⟨.zero, ⟨5⟩⟩]⟩, {}⟩ none,
    .appendLeveled ⟨⟨[⟨.one, ⟨2⟩⟩]⟩, ⟨[⟨.one, ⟨2⟩⟩]⟩, ⟨[⟨.zero, ⟨4⟩⟩, ⟨.one, .one⟩]⟩⟩
      (some ⟨"y * y == 1", []⟩)]

/-- The values that are checked have 3 for `y`. -/
theorem zero_terms_inert_padded :
    ((empty {}).run (paddedRun.map Call.withoutZeros)).reportCoverage =
        ⟨[.unconstrainedHints 1], .ok ()⟩ ∧
      ∃ text, ((empty {}).run (paddedRun.map Call.withoutZeros)).checkWitness
          #[1, .ofNat 2, .ofNat 3, .ofNat 4, 0, 0] =
        .error (.unsatisfied 2 text (some ⟨"y * y == 1", []⟩)) := by
  have hleveled : AppendsLeveled paddedRun := by
    simp [AppendsLeveled, paddedRun, registerOver]
  have haccepted : (empty {}).AcceptsConstraints paddedRun :=
    .cons (fun _ => rfl) <| .cons (fun _ => rfl) <| .cons (fun _ => rfl) <|
      .cons (fun _ => rfl) <| .cons (fun _ => rfl) <| .cons (fun _ => rfl) <|
      .cons (fun _ => by cbv) <| .cons (fun _ => by cbv) <| .cons (fun _ => by cbv) .nil
  obtain ⟨-, -, hreport, hverdict⟩ := zero_terms_inert {} hleveled haccepted
  have hpadded :
      ((empty {}).run paddedRun).checkWitness #[1, .ofNat 2, .ofNat 3, .ofNat 4, 0, 0] =
        .error (.unsatisfied 2 "y ⋅ y == 0 + 1" (some ⟨"y * y == 1", []⟩)) := by
    cbv
  have herased := hverdict #[1, .ofNat 2, .ofNat 3, .ofNat 4, 0, 0]
  rw [hpadded] at herased
  refine ⟨hreport.trans (by cbv), ?_⟩
  generalize ((empty {}).run (paddedRun.map Call.withoutZeros)).checkWitness _ = verdict
    at herased ⊢
  cases herased with
  | same => exact ⟨_, rfl⟩
  | unsatisfied => exact ⟨_, rfl⟩

end System

end RankOne

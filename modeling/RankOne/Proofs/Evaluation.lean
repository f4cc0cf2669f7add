import Mathlib.Algebra.Field.Basic
import Mathlib.Algebra.BigOperators.Group.List.Defs
import RankOne.Constraint

/-!
# Values of terms, sums and constraints

A term has a value if the table holds its coefficient and the witness its wire (`Term.HasValue`).
Evaluation adds up the values of a sum, or ends with the fault of the first term that has none
(`LinearExpression.evaluate_of_hasValue`, `LinearExpression.evaluate_of_offender`). A constraint is
evaluated like one long sum: the first offender of its three sides decides
(`Constraint.holds_of_offender`), and without one its equation does
(`Constraint.holds_of_hasValue`).
-/

namespace RankOne

variable {F : Type}

namespace Term

/-- The table holds the coefficient of a term, and its wire is one of the first `count`. -/
def HasValue (coeffs : CoeffTable F) (count : Nat) (t : Term) : Prop :=
  t.coeff.index < coeffs.size ∧ t.wire.index < count

instance (coeffs : CoeffTable F) (count : Nat) (t : Term) : Decidable (t.HasValue coeffs count) :=
  inferInstanceAs (Decidable (_ ∧ _))

/-- The fault of a term without a value: an unknown coefficient is noticed first. -/
def fault (coeffs : CoeffTable F) (count : Nat) (t : Term) : Fault :=
  if t.coeff.index < coeffs.size then .undeclaredWire t.wire count else .unknownCoeff t.coeff

/-- The first of some terms that has no value. -/
def offender? (coeffs : CoeffTable F) (count : Nat) (ts : List Term) : Option Term :=
  ts.find? fun t => ¬ t.HasValue coeffs count

theorem offender?_append (coeffs : CoeffTable F) (count : Nat) (xs ys : List Term) :
    offender? coeffs count (xs ++ ys) =
      (offender? coeffs count xs).or (offender? coeffs count ys) :=
  List.find?_append

theorem offender?_eq_none_iff {coeffs : CoeffTable F} {count : Nat} {ts : List Term} :
    offender? coeffs count ts = none ↔ ∀ t ∈ ts, t.HasValue coeffs count := by
  simp [offender?]

theorem offender?_eq_some_iff {coeffs : CoeffTable F} {count : Nat} {ts : List Term} {t : Term} :
    offender? coeffs count ts = some t ↔ ¬ t.HasValue coeffs count ∧
      ∃ before after, ts = before ++ t :: after ∧ ∀ u ∈ before, u.HasValue coeffs count := by
  simp [offender?, List.find?_eq_some_iff_append]

end Term

section Field

variable [Field F] {coeffs : CoeffTable F} {witness : Array F}

/-! ## Terms -/

/-- The product of a term's coefficient and the value on its wire. -/
def Term.value (coeffs : CoeffTable F) (witness : Array F) (t : Term) : F :=
  (coeffs.get? t.coeff).getD 0 * witness[t.wire.index]?.getD 0

theorem CoeffTable.get?_eq_none_iff {c : CoeffId} :
    coeffs.get? c = none ↔ coeffs.size ≤ c.index := by
  rw [get?_eq_getElem?, List.getElem?_eq_none_iff, length_values]

theorem Term.evaluate_of_hasValue {t : Term} (h : t.HasValue coeffs witness.size) :
    t.evaluate coeffs witness = .ok (t.value coeffs witness) := by
  obtain ⟨hcoeff, hwire⟩ := h
  unfold Term.evaluate Term.value
  cases hget : coeffs.get? t.coeff with
  | none =>
      have hle := CoeffTable.get?_eq_none_iff.mp hget
      omega
  | some c => simp [hwire]

theorem Term.evaluate_of_not_hasValue {t : Term} (h : ¬ t.HasValue coeffs witness.size) :
    t.evaluate coeffs witness = .error (t.fault coeffs witness.size) := by
  unfold Term.evaluate Term.fault
  by_cases hcoeff : t.coeff.index < coeffs.size
  · have hwire : witness.size ≤ t.wire.index := Nat.le_of_not_lt fun hlt => h ⟨hcoeff, hlt⟩
    rw [if_pos hcoeff]
    cases hget : coeffs.get? t.coeff with
    | none =>
        have hle := CoeffTable.get?_eq_none_iff.mp hget
        omega
    | some c => simp [hwire]
  · rw [if_neg hcoeff, CoeffTable.get?_eq_none_iff.mpr (by omega)]

/-! ## Sums -/

namespace LinearExpression

/-- The sum of the values of the terms. -/
def value (coeffs : CoeffTable F) (witness : Array F) (e : LinearExpression) : F :=
  (e.terms.map (Term.value coeffs witness)).sum

theorem value_eq_of_terms {coeffs' : CoeffTable F} {witness' : Array F} {e : LinearExpression}
    (h : ∀ t ∈ e.terms, t.value coeffs' witness' = t.value coeffs witness) :
    e.value coeffs' witness' = e.value coeffs witness := by
  rw [value, value, List.map_congr_left h]

theorem accumulate_of_hasValue (sum : F) {ts : List Term}
    (h : ∀ t ∈ ts, t.HasValue coeffs witness.size) :
    accumulate coeffs witness sum ts = .ok (sum + (ts.map (Term.value coeffs witness)).sum) := by
  induction ts generalizing sum with
  | nil => simp [accumulate]
  | cons t rest ih =>
      obtain ⟨ht, hrest⟩ := List.forall_mem_cons.mp h
      simp only [accumulate, Term.evaluate_of_hasValue ht]
      rw [ih _ hrest, List.map_cons, List.sum_cons, add_assoc]

theorem accumulate_of_offender (sum : F) {ts : List Term} {t : Term}
    (h : Term.offender? coeffs witness.size ts = some t) :
    accumulate coeffs witness sum ts = .error (t.fault coeffs witness.size) := by
  -- whatever was added up before the offender does not matter
  induction ts generalizing sum with
  | nil => cases h
  | cons u rest ih =>
      by_cases hu : u.HasValue coeffs witness.size
      · rw [Term.offender?, List.find?_cons_of_neg (by simpa using hu)] at h
        simp only [accumulate, Term.evaluate_of_hasValue hu]
        exact ih _ h
      · rw [Term.offender?, List.find?_cons_of_pos (by simpa using hu)] at h
        cases h
        simp only [accumulate, Term.evaluate_of_not_hasValue hu]

theorem evaluate_of_hasValue {e : LinearExpression}
    (h : Term.offender? coeffs witness.size e.terms = none) :
    e.evaluate coeffs witness = .ok (e.value coeffs witness) := by
  rw [evaluate, accumulate_of_hasValue 0 (Term.offender?_eq_none_iff.mp h), zero_add]
  rfl

theorem evaluate_of_offender {e : LinearExpression} {t : Term}
    (h : Term.offender? coeffs witness.size e.terms = some t) :
    e.evaluate coeffs witness = .error (t.fault coeffs witness.size) :=
  accumulate_of_offender 0 h

end LinearExpression

/-! ## Constraints -/

namespace Constraint

/-- The terms of the left, the right and the output side, in this order. -/
def terms (c : Constraint) : List Term := c.left.terms ++ c.right.terms ++ c.output.terms

omit [Field F] in
theorem forall_mem_terms {c : Constraint} {P : Term → Prop} :
    (∀ t ∈ c.terms, P t) ↔ (∀ t ∈ c.left.terms, P t) ∧ (∀ t ∈ c.right.terms, P t) ∧
      ∀ t ∈ c.output.terms, P t := by
  simp only [terms, List.mem_append, or_imp, forall_and, and_assoc]

/-- The product of the left and the right side is the output side. -/
def Equation (coeffs : CoeffTable F) (witness : Array F) (c : Constraint) : Prop :=
  c.left.value coeffs witness * c.right.value coeffs witness = c.output.value coeffs witness

variable {c : Constraint}

/-- An equation is one of the values of its terms. -/
theorem equation_iff_of_terms {coeffs' : CoeffTable F} {witness' : Array F}
    (h : ∀ t ∈ c.terms, t.value coeffs' witness' = t.value coeffs witness) :
    c.Equation coeffs' witness' ↔ c.Equation coeffs witness := by
  obtain ⟨hleft, hright, houtput⟩ := forall_mem_terms.mp h
  rw [Equation, Equation, LinearExpression.value_eq_of_terms hleft,
    LinearExpression.value_eq_of_terms hright, LinearExpression.value_eq_of_terms houtput]

variable [DecidableEq F]

instance : Decidable (c.Equation coeffs witness) := inferInstanceAs (Decidable (_ = _))

theorem holds_of_hasValue (h : ∀ t ∈ c.terms, t.HasValue coeffs witness.size) :
    c.holds coeffs witness = .ok (decide (c.Equation coeffs witness)) := by
  obtain ⟨hleft, hright, houtput⟩ := forall_mem_terms.mp h
  rw [← Term.offender?_eq_none_iff] at hleft hright houtput
  simp only [holds, LinearExpression.evaluate_of_hasValue hleft,
    LinearExpression.evaluate_of_hasValue hright, LinearExpression.evaluate_of_hasValue houtput]
  rfl

theorem holds_of_offender {t : Term} (h : Term.offender? coeffs witness.size c.terms = some t) :
    c.holds coeffs witness = .error (t.fault coeffs witness.size) := by
  rw [terms, Term.offender?_append, Term.offender?_append] at h
  unfold holds
  -- the sides before the one with the offender have their values
  cases hleft : Term.offender? coeffs witness.size c.left.terms with
  | some u =>
      rw [hleft] at h
      cases h
      rw [LinearExpression.evaluate_of_offender hleft]
      rfl
  | none =>
      rw [hleft, Option.none_or] at h
      rw [LinearExpression.evaluate_of_hasValue hleft]
      cases hright : Term.offender? coeffs witness.size c.right.terms with
      | some u =>
          rw [hright] at h
          cases h
          rw [LinearExpression.evaluate_of_offender hright]
          rfl
      | none =>
          rw [hright, Option.none_or] at h
          rw [LinearExpression.evaluate_of_hasValue hright,
            LinearExpression.evaluate_of_offender h]
          rfl

end Constraint

end Field

end RankOne

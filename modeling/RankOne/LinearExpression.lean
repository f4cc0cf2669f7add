import RankOne.CoeffTable
import RankOne.Fault

/-!
# Linear expressions

A linear expression is a sum of terms, each a coefficient times a wire. Terms keep the order in
which they were written, and nothing is merged: the same wire may occur more than once, and a term
may carry the coefficient zero.

Main statement: `evaluate_add` (a sum has the value of its parts, and the fault of the first part
that has one).
-/

namespace RankOne

/-- A coefficient times a wire. -/
structure Term where
  coeff : CoeffId
  wire : Wire
deriving DecidableEq

/-- Whether a term carries the coefficient `0`. Its wire then has no say. -/
def Term.isZero (t : Term) : Bool := t.coeff = .zero

/-- A sum of terms. -/
structure LinearExpression where
  terms : List Term := []
deriving DecidableEq

namespace LinearExpression

/-- The empty sum. -/
def empty : LinearExpression := {}

/-- How many terms a sum has. -/
def length (e : LinearExpression) : Nat := e.terms.length

/-- Whether a sum has no terms. -/
def isEmpty (e : LinearExpression) : Bool := e.terms.isEmpty

/-- Writes the terms of one sum after those of another. -/
instance : Add LinearExpression := ⟨fun a b => ⟨a.terms ++ b.terms⟩⟩

/-- The wires of the terms, in order. -/
def wires (e : LinearExpression) : List Wire := e.terms.map Term.wire

/-- The wires of the terms with a coefficient other than `0`, in order. -/
def nonzeroWires (e : LinearExpression) : List Wire :=
  (e.terms.filter fun t => !t.isZero).map Term.wire

@[simp] theorem terms_add (a b : LinearExpression) : (a + b).terms = a.terms ++ b.terms := rfl

@[simp] theorem terms_empty : empty.terms = [] := rfl

end LinearExpression

variable {F : Type} [Zero F] [One F] [Add F] [Neg F] [Mul F]

/-- The value of a term. An unknown coefficient is noticed before a wire that the witness lacks. -/
def Term.evaluate (coeffs : CoeffTable F) (witness : Array F) (t : Term) : Except Fault F :=
  match coeffs.get? t.coeff, witness[t.wire.index]? with
  | none, _ => .error (.unknownCoeff t.coeff)
  | some _, none => .error (.undeclaredWire t.wire witness.size)
  | some c, some v => .ok (c * v)

namespace LinearExpression

/-- Adds the values of terms to what is there, in order. -/
def accumulate (coeffs : CoeffTable F) (witness : Array F) : F → List Term → Except Fault F
  | sum, [] => .ok sum
  | sum, t :: rest =>
    match t.evaluate coeffs witness with
    | .error fault => .error fault
    | .ok value => accumulate coeffs witness (sum + value) rest

/-- The value of a sum, or the fault of its first term that has none. -/
def evaluate (coeffs : CoeffTable F) (witness : Array F) (e : LinearExpression) : Except Fault F :=
  accumulate coeffs witness 0 e.terms

theorem accumulate_append (coeffs : CoeffTable F) (witness : Array F) (sum : F)
    (xs ys : List Term) :
    accumulate coeffs witness sum (xs ++ ys) =
      (accumulate coeffs witness sum xs).bind (accumulate coeffs witness · ys) := by
  induction xs generalizing sum with
  | nil => rfl
  | cons t rest ih =>
    cases h : t.evaluate coeffs witness with
    | error fault => simp [accumulate, h, Except.bind]
    | ok value => simpa [accumulate, h] using ih (sum + value)

/-- A sum goes on from the value of its first part, unless that part has a fault. -/
theorem evaluate_add (coeffs : CoeffTable F) (witness : Array F) (a b : LinearExpression) :
    (a + b).evaluate coeffs witness =
      (a.evaluate coeffs witness).bind (accumulate coeffs witness · b.terms) :=
  accumulate_append coeffs witness 0 a.terms b.terms

end LinearExpression

end RankOne

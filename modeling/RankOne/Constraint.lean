import RankOne.LinearExpression

/-!
# Rank-1 constraints

A constraint is a triple of linear expressions and asks that the product of the first two is the
third.
-/

namespace RankOne

/-- The demand `left * right = output`. -/
structure Constraint where
  left : LinearExpression := {}
  right : LinearExpression := {}
  output : LinearExpression := {}
deriving DecidableEq

namespace Constraint

/-- The wires of the left, the right and the output side, in this order, with repetitions and with
the wires of zero terms. -/
def wires (c : Constraint) : List Wire := c.left.wires ++ c.right.wires ++ c.output.wires

/-- The wires that the constraint does constrain: those of its terms with a coefficient other than
`0`, in the same order, with repetitions. -/
def nonzeroWires (c : Constraint) : List Wire :=
  c.left.nonzeroWires ++ c.right.nonzeroWires ++ c.output.nonzeroWires

/-- Whether a witness meets the constraint. The sides are evaluated from left to right, and the
first that has no value decides the fault. -/
def holds {F : Type} [Zero F] [One F] [Add F] [Neg F] [Mul F] [DecidableEq F]
    (coeffs : CoeffTable F) (witness : Array F) (c : Constraint) : Except Fault Bool := do
  let left ← c.left.evaluate coeffs witness
  let right ← c.right.evaluate coeffs witness
  let output ← c.output.evaluate coeffs witness
  return left * right = output

end Constraint

end RankOne

import RankOne.LinearExpression

/-!
# Hints

A hint describes wires whose values are computed outside the constraints: which computation it is,
what it is given and which wires it fills.
-/

namespace RankOne

/-- Which computation a hint asks for. -/
structure HintId where
  number : UInt32
deriving DecidableEq

instance : Inhabited HintId := ⟨⟨0⟩⟩

/-- A computation outside the constraints. -/
structure Hint where
  id : HintId
  inputs : List LinearExpression
  outputs : List Wire
deriving DecidableEq

/-- The wires that a hint depends on: those of the terms of its arguments with a coefficient other
than `0`, in order, with repetitions. -/
def Hint.inputWires (h : Hint) : List Wire := h.inputs.flatMap LinearExpression.nonzeroWires

end RankOne

import RankOne.Constraint

/-!
# Constraints as text

A constraint is written `L ⋅ R == O`. Which texts stand for coefficients and wires is up to a
`Naming`; terms with the coefficients `0`, `1` and `-1` are abbreviated.
-/

namespace RankOne

/-- The texts that stand for coefficients and wires. -/
structure Naming where
  coeff : CoeffId → String
  wire : Wire → String

namespace Naming

/-- Everything is known by its place alone. -/
def indices : Naming := ⟨CoeffId.label, Wire.label⟩

/-- The n-th text stands for the n-th coefficient or wire, and past the end the place does. -/
def ofArrays (coeffs wires : Array String) : Naming where
  coeff c := coeffs[c.index]?.getD c.label
  wire w := wires[w.index]?.getD w.label

end Naming

/-- A zero term is `0`; a coefficient `1` is left out and `-1` is a sign. -/
def Term.render (n : Naming) (t : Term) : String :=
  if t.coeff = .zero then "0"
  else if t.coeff = .one then n.wire t.wire
  else if t.coeff = .minusOne then "-" ++ n.wire t.wire
  else n.coeff t.coeff ++ "⋅" ++ n.wire t.wire

/-- The terms with a plus between them; the empty sum is `0`. -/
def LinearExpression.render (n : Naming) (e : LinearExpression) : String :=
  if e.isEmpty then "0" else " + ".intercalate (e.terms.map (Term.render n))

/-- The two factors, then the product. -/
def Constraint.render (n : Naming) (c : Constraint) : String :=
  c.left.render n ++ " ⋅ " ++ c.right.render n ++ " == " ++ c.output.render n

end RankOne

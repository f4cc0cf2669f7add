import RankOne.Scalar.Residue

/-!
# Quadratic extensions

The residues modulo `p` with a square root `u` of `d` adjoined. For a prime `p` and a `d` that is no
square modulo `p` they are a field of `p ^ 2` elements.
-/

namespace RankOne

/-- The element `c0 + c1 * u`, where `u * u` is `d`. -/
structure Quadratic (p d : Nat) where
  c0 : Residue p
  c1 : Residue p
deriving DecidableEq

namespace Quadratic

variable {p d : Nat} [Modulus p]

/-- A residue as an element of the extension. -/
def ofResidue (a : Residue p) : Quadratic p d := ⟨a, 0⟩

instance : Zero (Quadratic p d) := ⟨ofResidue 0⟩

instance : One (Quadratic p d) := ⟨ofResidue 1⟩

instance : Add (Quadratic p d) := ⟨fun a b => ⟨a.c0 + b.c0, a.c1 + b.c1⟩⟩

instance : Mul (Quadratic p d) :=
  ⟨fun a b => ⟨a.c0 * b.c0 + .ofNat d * (a.c1 * b.c1), a.c0 * b.c1 + a.c1 * b.c0⟩⟩

instance : Neg (Quadratic p d) := ⟨fun a => ⟨-a.c0, -a.c1⟩⟩

/-- An element is written with both of its residues. -/
instance : ToString (Quadratic p d) :=
  ⟨fun a => "QuadExtField(" ++ toString a.c0 ++ " + " ++ toString a.c1 ++ " * u)"⟩

end Quadratic

end RankOne

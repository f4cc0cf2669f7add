/-!
# Residues

The integers modulo `p`, each by its least non-negative representative. For a prime `p` they are a
field, and the systems of this library are systems over it.
-/

namespace RankOne

/-- A modulus is positive, for otherwise there are no residues. -/
class Modulus (p : Nat) : Prop where
  pos : 0 < p

instance (n : Nat) : Modulus (n + 1) := ⟨Nat.succ_pos n⟩

/-- An integer modulo `p`. -/
structure Residue (p : Nat) where
  val : Nat
  val_lt : val < p
deriving DecidableEq

namespace Residue

variable {p : Nat} [Modulus p]

/-- The residue of a natural number. -/
def ofNat (n : Nat) : Residue p := ⟨n % p, Nat.mod_lt n Modulus.pos⟩

/-- The residue of an integer. -/
def ofInt (n : Int) : Residue p := ofNat (n % p).toNat

instance : Zero (Residue p) := ⟨ofNat 0⟩

instance : One (Residue p) := ⟨ofNat 1⟩

instance : Add (Residue p) := ⟨fun a b => ofNat (a.val + b.val)⟩

instance : Mul (Residue p) := ⟨fun a b => ofNat (a.val * b.val)⟩

instance : Neg (Residue p) := ⟨fun a => ofNat (p - a.val)⟩

instance : Hashable (Residue p) := ⟨fun a => hash a.val⟩

/-- A residue is written as its representative, in decimal. -/
instance : ToString (Residue p) := ⟨fun a => toString a.val⟩

end Residue

end RankOne

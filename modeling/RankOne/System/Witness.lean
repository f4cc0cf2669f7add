import RankOne.System

/-!
# Witnesses

A witness has a value for each wire. It satisfies a system if it carries one on the constant-one
wire and meets every constraint.
-/

namespace RankOne.System

variable {F : Type} [Zero F] [One F] [Add F] [Neg F] [Mul F] [DecidableEq F] [ToString F]

/-- Checks the entries from an id on, and stops at the first that has no value or is not met. -/
def checkEntries (s : System F) (witness : Array F) : Nat → List Entry → Except Fault Unit
  | _, [] => .ok ()
  | cid, e :: rest =>
    match e.constraint.holds s.coeffs witness with
    | .error fault => .error fault
    | .ok false => .error (.unsatisfied cid (e.constraint.render s.naming) e.source)
    | .ok true => s.checkEntries witness (cid + 1) rest

/-- Checks the number of values, then the constant-one wire, then the constraints in order. -/
def checkWitness (s : System F) (witness : Array F) : Except Fault Unit :=
  if witness.size ≠ s.layout.wireCount then
    .error (.witnessLength s.layout.wireCount witness.size)
  else if witness[0]? ≠ some 1 then .error .oneWireNotOne
  else s.checkEntries witness 0 s.entries.toList

end RankOne.System

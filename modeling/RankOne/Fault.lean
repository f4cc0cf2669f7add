import RankOne.Wire
import RankOne.CoeffId
import RankOne.Provenance
import RankOne.Text.Quoted

/-!
# Faults

Everything that can be wrong with a declaration, a hint, a constraint, a leveling, a finished system
or a witness. A fault is a cause with its data; `Fault.message` is its wording.
-/

namespace RankOne

/-- A cause for which a constraint system turns something down. -/
inductive Fault where
  /-- No input is declared besides the constant one. -/
  | noInputs
  /-- The named inputs occur in no constraint. -/
  | unconstrainedInputs (names : List String)
  /-- That many hint outputs occur in no constraint. -/
  | unconstrainedHints (count : Nat)
  /-- The wire is none of the `declared` first ones. -/
  | undeclaredWire (wire : Wire) (declared : Nat)
  /-- No constraint has this id; `stored` constraints do exist. -/
  | unknownConstraint (cid stored : Nat)
  /-- Constraint `got` was to be leveled although `expected` is next. -/
  | levelOutOfOrder (expected got : Nat)
  /-- The coefficient table has no such id. -/
  | unknownCoeff (coeff : CoeffId)
  /-- A hint cannot compute an input. -/
  | hintOutputIsInput (wire : Wire)
  /-- A wire is computed by one hint only. -/
  | hintOutputTaken (wire : Wire)
  /-- Public inputs come before secret ones. -/
  | publicAfterSecret (name : String)
  /-- Inputs come before internal wires. -/
  | inputAfterInternal (name : String)
  /-- A witness has one value for each wire. -/
  | witnessLength (expected actual : Nat)
  /-- The constant-one wire carries one. -/
  | oneWireNotOne
  /-- The first constraint that a witness violates, its text and where it comes from. -/
  | unsatisfied (cid : Nat) (constraint : String) (source : Option Provenance)
deriving DecidableEq

namespace Fault

/-- The wording of a fault. -/
def message : Fault → String
  | noInputs => "invalid constraint system: no input defined"
  | unconstrainedInputs names =>
    toString names.length ++ " unconstrained input(s):\n" ++ "\n".intercalate names ++ "\n"
  | unconstrainedHints count =>
    toString count ++ " unconstrained hints; i.e. wire created through a hint but doesn't appear "
      ++ "in the constraint system"
  | undeclaredWire wire declared =>
    "wire " ++ wire.label ++ " is out of range, the system declares " ++ toString declared
      ++ " wires"
  | unknownConstraint cid stored =>
    "constraint #" ++ toString cid ++ " does not exist, the system holds " ++ toString stored
      ++ " constraints"
  | levelOutOfOrder expected got =>
    "levels must be assigned in append order: expected constraint #" ++ toString expected
      ++ ", got #" ++ toString got
  | unknownCoeff coeff => "coefficient " ++ coeff.label ++ " is not in the coefficient table"
  | hintOutputIsInput wire => "hint output " ++ wire.label ++ " is an input wire"
  | hintOutputTaken wire =>
    "hint output " ++ wire.label ++ " is already produced by another hint"
  | publicAfterSecret name =>
    "public input " ++ Text.quote name ++ " declared after a secret input"
  | inputAfterInternal name => "input " ++ Text.quote name ++ " declared after an internal wire"
  | witnessLength expected actual =>
    "witness holds " ++ toString actual ++ " values, expected " ++ toString expected
  | oneWireNotOne => "witness value for the constant-one wire is not 1"
  | unsatisfied cid constraint _ =>
    "constraint #" ++ toString cid ++ " is not satisfied: " ++ constraint

end Fault

end RankOne

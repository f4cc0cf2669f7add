import RankOne.Config
import RankOne.CoeffTable
import RankOne.HintRegistry
import RankOne.Rendering
import RankOne.Schedule

/-!
# Constraint systems

A system holds declared wires, interned coefficients, registered hints and stored constraints with
their schedule. It only grows: nothing that it holds is changed or taken away. Constraints are known
by their place.
-/

namespace RankOne

/-- A stored constraint and where it comes from. -/
structure Entry where
  constraint : Constraint
  source : Option Provenance := none
deriving DecidableEq

/-- A rank-1 constraint system over `F`. -/
structure System (F : Type) where
  config : Config := {}
  layout : Layout := {}
  coeffs : CoeffTable F := {}
  hints : HintRegistry := {}
  entries : Array Entry := #[]
  schedule : Schedule := {}

namespace System

variable {F : Type}

/-- The system in which nothing is declared. -/
def empty (config : Config) : System F := { config := config }

/-! ## Declarations -/

/-- Takes over what has become of a declaration: the wire, and the system after it. -/
def declare (s : System F) : Except Fault (Wire × Layout) → Except Fault Wire × System F
  | .error fault => (.error fault, s)
  | .ok (w, layout) => (.ok w, { s with layout := layout })

/-- Declares the next public input. -/
def declarePublic (s : System F) (name : String) : Except Fault Wire × System F :=
  s.declare (s.layout.declarePublic name)

/-- Declares the next secret input. -/
def declareSecret (s : System F) (name : String) : Except Fault Wire × System F :=
  s.declare (s.layout.declareSecret name)

/-- Declares the next internal wire. -/
def declareInternal (s : System F) : Wire × System F :=
  (s.layout.declareInternal.1, { s with layout := s.layout.declareInternal.2 })

/-- The id of a coefficient, which takes the next one if it is new. -/
def intern [Zero F] [One F] [Add F] [Neg F] [DecidableEq F] (s : System F) (c : F) :
    CoeffId × System F :=
  ((s.coeffs.intern c).1, { s with coeffs := (s.coeffs.intern c).2 })

/-- Registers a hint under the next place: the place, and the system after it. -/
def register (s : System F) (h : Hint) : Except Fault Nat × System F :=
  ((s.hints.register s.layout h).1, { s with hints := (s.hints.register s.layout h).2 })

/-! ## Constraints -/

/-- How many constraints are stored. -/
def constraintCount (s : System F) : Nat := s.entries.size

/-- A stored constraint. -/
def constraint? (s : System F) (cid : Nat) : Option Constraint :=
  s.entries[cid]?.map Entry.constraint

/-- Where a stored constraint comes from, if that was said. -/
def source? (s : System F) (cid : Nat) : Option Provenance := s.entries[cid]?.bind Entry.source

/-- The stored constraints, in the order of their ids. -/
def constraints (s : System F) : List Constraint := s.entries.toList.map Entry.constraint

/-- Stores a constraint under the next id. It is not looked at, and it has no level yet. -/
def append (s : System F) (c : Constraint) (source : Option Provenance) : Nat × System F :=
  (s.entries.size, { s with entries := s.entries.push ⟨c, source⟩ })

/-! ## Texts -/

/-- Coefficients are known by their values and inputs by their names. What has neither is known by
its place. -/
def naming [Zero F] [One F] [Add F] [Neg F] [ToString F] (s : System F) : Naming where
  coeff c := ((s.coeffs.get? c).map toString).getD c.label
  wire w := (s.layout.name? w).getD w.label

end System

end RankOne

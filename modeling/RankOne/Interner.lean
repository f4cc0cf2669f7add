import RankOne.CoeffTable
import Std.Data.HashMap

/-!
# Interners

To look for the id of a coefficient in a table is to go through its coefficients. An interner keeps
a second store for this: beside the coefficients, in the order of their ids, it has a map from each
coefficient to its id. The two stores are written one after the other. Where reserved coefficients
coincide, each of them has its place among the coefficients, and the map keeps the first place.
-/

namespace RankOne

/-- The coefficients in the order of their ids, and the id of each of them. -/
structure Interner (F : Type) [BEq F] [Hashable F] where
  values : Array F
  ids : Std.HashMap F CoeffId

namespace Interner

variable {F : Type} [BEq F] [Hashable F]

/-- Enters coefficients with their places. One that has an id already keeps it. -/
def enterAll (ids : Std.HashMap F CoeffId) (placed : List (F × Nat)) : Std.HashMap F CoeffId :=
  placed.foldl (fun ids (c, i) => ids.insertIfNew c ⟨i⟩) ids

/-- The interner of the reserved coefficients. -/
def new [Zero F] [One F] [Add F] [Neg F] : Interner F where
  values := (CoeffTable.reserved F).toArray
  ids := enterAll {} (CoeffTable.reserved F).zipIdx

/-- How many ids are in use. -/
def size (x : Interner F) : Nat := x.values.size

/-- The coefficient with a given id. -/
def get? (x : Interner F) (id : CoeffId) : Option F := x.values[id.index]?

/-- The id of a coefficient. A new one takes the next place, and is entered in both stores. -/
def intern (x : Interner F) (c : F) : CoeffId × Interner F :=
  match x.ids[c]? with
  | some id => (id, x)
  | none => (⟨x.size⟩, ⟨x.values.push c, x.ids.insert c ⟨x.size⟩⟩)

/-- Interns coefficients one after another: their ids, and the interner after them. -/
def internAll (x : Interner F) : List F → List CoeffId × Interner F
  | [] => ([], x)
  | c :: rest =>
    ((x.intern c).1 :: ((x.intern c).2.internAll rest).1, ((x.intern c).2.internAll rest).2)

end Interner

end RankOne

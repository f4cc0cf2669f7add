/-!
# Wires

A rank-1 constraint system relates the values carried by its *wires*. A wire is an index: its place
in a witness. Wire 0 is the constant one.
-/

namespace RankOne

/-- A wire, known by its place in a witness. -/
structure Wire where
  index : Nat
deriving DecidableEq

namespace Wire

/-- The wire whose value is always one. -/
def one : Wire := ⟨0⟩

instance : Inhabited Wire := ⟨one⟩

/-- Wires are ordered by their place. -/
instance : LE Wire := ⟨fun a b => a.index ≤ b.index⟩

instance (a b : Wire) : Decidable (a ≤ b) := inferInstanceAs (Decidable (a.index ≤ b.index))

instance : Max Wire := maxOfLe

/-- The text that stands for a wire without a declared name. -/
def label (w : Wire) : String := "v" ++ toString w.index

theorem ext {a b : Wire} (h : a.index = b.index) : a = b := by
  cases a
  cases b
  exact congrArg Wire.mk h

theorem le_iff {a b : Wire} : a ≤ b ↔ a.index ≤ b.index := Iff.rfl

end Wire

end RankOne

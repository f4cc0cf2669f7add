/-!
# Coefficient ids

Terms refer to their coefficients by id. The first four ids are reserved for `0`, `1`, `1 + 1` and
`-1`, so that these are recognised without looking anything up.
-/

namespace RankOne

/-- The place of a coefficient in a coefficient table. -/
structure CoeffId where
  index : Nat
deriving DecidableEq

namespace CoeffId

/-- The id of `0`. -/
def zero : CoeffId := ⟨0⟩

/-- The id of `1`. -/
def one : CoeffId := ⟨1⟩

/-- The id of `1 + 1`. -/
def two : CoeffId := ⟨2⟩

/-- The id of `-1`. -/
def minusOne : CoeffId := ⟨3⟩

instance : Inhabited CoeffId := ⟨zero⟩

/-- Ids are ordered by their place. -/
instance : LE CoeffId := ⟨fun a b => a.index ≤ b.index⟩

instance (a b : CoeffId) : Decidable (a ≤ b) := inferInstanceAs (Decidable (a.index ≤ b.index))

/-- The text that stands for a coefficient whose value is not known. -/
def label (c : CoeffId) : String := "c" ++ toString c.index

theorem ext {a b : CoeffId} (h : a.index = b.index) : a = b := by
  cases a
  cases b
  exact congrArg CoeffId.mk h

theorem le_iff {a b : CoeffId} : a ≤ b ↔ a.index ≤ b.index := Iff.rfl

end CoeffId

end RankOne

import RankOne.CoeffId

/-!
# Coefficient tables

Constraints hold no field elements. Each coefficient stands once in a table and terms name it by its
place. The table opens with `0`, `1`, `1 + 1` and `-1`; in a field of small characteristic some of
these coincide, and then the lowest place is the one that is handed out. A coefficient is looked for
in the table itself; an `Interner` keeps a map for this.

Main statements: `get?_eq_getElem?` and `find?_eq_idxOf?` (looking up and finding are two views of
the one list `values`).
-/

namespace RankOne

/-- The coefficients that were interned besides the reserved ones, oldest first. -/
structure CoeffTable (F : Type) where
  interned : Array F := #[]
deriving DecidableEq

namespace CoeffTable

variable {F : Type} [Zero F] [One F] [Add F] [Neg F]

/-- The coefficients with a reserved id, in the order of their ids. -/
def reserved (F : Type) [Zero F] [One F] [Add F] [Neg F] : List F := [0, 1, 1 + 1, -1]

/-- All coefficients, in the order of their ids. -/
def values (t : CoeffTable F) : List F := reserved F ++ t.interned.toList

omit [Zero F] [One F] [Add F] [Neg F] in
/-- How many ids are in use, the reserved ones included. -/
def size (t : CoeffTable F) : Nat := t.interned.size + 4

/-- The coefficient with a given id. -/
def get? (t : CoeffTable F) (id : CoeffId) : Option F :=
  match id.index with
  | 0 => some 0
  | 1 => some 1
  | 2 => some (1 + 1)
  | 3 => some (-1)
  | i + 4 => t.interned[i]?

/-- The lowest id of a coefficient. -/
def find? [DecidableEq F] (t : CoeffTable F) (c : F) : Option CoeffId :=
  if c = 0 then some .zero
  else if c = 1 then some .one
  else if c = 1 + 1 then some .two
  else if c = -1 then some .minusOne
  else (t.interned.idxOf? c).map fun i => ⟨i + 4⟩

/-- The id of a coefficient, which takes the next one if it is new. -/
def intern [DecidableEq F] (t : CoeffTable F) (c : F) : CoeffId × CoeffTable F :=
  match t.find? c with
  | some id => (id, t)
  | none => (⟨t.size⟩, { t with interned := t.interned.push c })

/-! ## Views -/

theorem length_values (t : CoeffTable F) : t.values.length = t.size := by
  simp only [values, reserved, size, List.length_append, List.length_cons, List.length_nil,
    Array.length_toList]
  omega

/-- Looking up an id reads the list of values at that place. -/
theorem get?_eq_getElem? (t : CoeffTable F) (id : CoeffId) : t.get? id = t.values[id.index]? := by
  obtain ⟨i⟩ := id
  match i with
  | 0 | 1 | 2 | 3 => rfl
  | i + 4 => simp [get?, values, reserved]

/-- Finding a coefficient yields its first place in the list of values. -/
theorem find?_eq_idxOf? [DecidableEq F] (t : CoeffTable F) (c : F) :
    t.find? c = (t.values.idxOf? c).map CoeffId.mk := by
  have flip : ∀ a : F, (a = c) = (c = a) := fun a => propext eq_comm
  by_cases h0 : c = 0
  · simp [find?, values, reserved, List.idxOf?_cons, h0, CoeffId.zero]
  · by_cases h1 : c = 1
    · simp [find?, values, reserved, List.idxOf?_cons, flip, h0, ← h1, CoeffId.one]
    · by_cases h2 : c = 1 + 1
      · simp [find?, values, reserved, List.idxOf?_cons, flip, h0, h1, ← h2, CoeffId.two]
      · by_cases h3 : c = -1
        · simp [find?, values, reserved, List.idxOf?_cons, flip, h0, h1, h2, ← h3,
            CoeffId.minusOne]
        · have hlist : t.interned.idxOf? c = t.interned.toList.idxOf? c :=
            List.idxOf?_toArray c t.interned.toList
          simp only [find?, values, reserved, List.cons_append, List.nil_append, List.idxOf?_cons,
            beq_iff_eq, flip, h0, h1, h2, h3, if_false, Option.map_map, hlist]
          rfl

/-- Interning keeps the list of values, and adds a new one at its end. -/
theorem values_intern [DecidableEq F] (t : CoeffTable F) (c : F) :
    (t.intern c).2.values = if c ∈ t.values then t.values else t.values ++ [c] := by
  unfold intern
  rw [find?_eq_idxOf?]
  cases h : t.values.idxOf? c with
  | none =>
    have hnew : c ∉ t.values := List.idxOf?_eq_none_iff.mp h
    rw [if_neg hnew]
    simp [values]
  | some i =>
    have hold : c ∈ t.values := by
      refine Decidable.by_contra fun hnew => ?_
      rw [List.idxOf?_eq_none_iff.mpr hnew] at h
      cases h
    rw [if_pos hold]
    rfl

end CoeffTable

end RankOne

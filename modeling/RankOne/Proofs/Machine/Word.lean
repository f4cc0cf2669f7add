/-!
# Words and places

A machine counts in words of 64 bits, and reads and writes lists and tables at places that must
exist. Whatever goes beyond that is a crash, which is not an answer. The operations here crash
when the numbers or places do not fit, and otherwise come to the usual result
(`Machine.plus_eq_ok`, `Machine.fetch_eq_ok_iff` and the like).
-/

namespace RankOne

/-- How many words there are: they are the numbers below this one. -/
def wordCount : Nat := UInt64.size

/-- A step that a machine cannot take. -/
inductive Crash where
  /-- The sum of the two is no word. -/
  | overflow (a b : Nat)
  /-- The second is greater than the first. -/
  | underflow (a b : Nat)
  /-- The place is none of the `size` first ones. -/
  | outOfBounds (place size : Nat)
deriving DecidableEq

namespace Machine

variable {α : Type}

/-! ## Words -/

/-- Adds two words. -/
def plus (a b : Nat) : Except Crash Nat :=
  if a + b < wordCount then .ok (a + b) else .error (.overflow a b)

/-- Takes one word from another. -/
def minus (a b : Nat) : Except Crash Nat := if b ≤ a then .ok (a - b) else .error (.underflow a b)

theorem plus_eq_ok {a b : Nat} (h : a + b < wordCount) : plus a b = .ok (a + b) := if_pos h

theorem eq_of_plus {a b n : Nat} (h : plus a b = .ok n) : n = a + b := by
  unfold plus at h
  split at h
  · exact (Except.ok.inj h).symm
  · cases h

theorem minus_eq_ok {a b : Nat} (h : b ≤ a) : minus a b = .ok (a - b) := if_pos h

theorem eq_of_minus {a b n : Nat} (h : minus a b = .ok n) : n = a - b := by
  unfold minus at h
  split at h
  · exact (Except.ok.inj h).symm
  · cases h

example : plus (UInt64.size - 1) 1 = .error (.overflow (UInt64.size - 1) 1) := rfl

/-! ## Places -/

/-- Reads a list at a place. -/
def fetch (xs : List α) (i : Nat) : Except Crash α :=
  match xs[i]? with
  | some x => .ok x
  | none => .error (.outOfBounds i xs.length)

/-- Writes a table at a place. -/
def store (xs : Array α) (i : Nat) (x : α) : Except Crash (Array α) :=
  if i < xs.size then .ok (xs.setIfInBounds i x) else .error (.outOfBounds i xs.size)

/-- The part of a list before a place. -/
def before (xs : List α) (i : Nat) : Except Crash (List α) :=
  if i ≤ xs.length then .ok (xs.take i) else .error (.outOfBounds i xs.length)

theorem fetch_eq_ok_iff {xs : List α} {i : Nat} {x : α} : fetch xs i = .ok x ↔ xs[i]? = some x := by
  unfold fetch
  cases xs[i]? <;> simp

theorem exists_fetch {xs : List α} {i : Nat} (h : i < xs.length) : ∃ x, fetch xs i = .ok x :=
  ⟨xs[i], fetch_eq_ok_iff.mpr (List.getElem?_eq_getElem h)⟩

theorem store_eq_ok {xs : Array α} {i : Nat} (h : i < xs.size) (x : α) :
    store xs i x = .ok (xs.setIfInBounds i x) :=
  if_pos h

theorem before_eq_ok {xs : List α} {i : Nat} (h : i ≤ xs.length) : before xs i = .ok (xs.take i) :=
  if_pos h

/-- A step that is taken after others comes to its result if they do. -/
theorem bind_eq_ok_iff {β : Type} {x : Except Crash α} {f : α → Except Crash β} {b : β} :
    x >>= f = .ok b ↔ ∃ a, x = .ok a ∧ f a = .ok b := by
  cases x with
  | error crash => simp [bind, Except.bind]
  | ok a => simp [bind, Except.bind]

end Machine

end RankOne

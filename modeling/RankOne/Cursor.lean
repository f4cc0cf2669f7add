import RankOne.Constraint

/-!
# Cursors

A cursor walks over the wires of a constraint. It is a place in the constraint, so walks are
independent of one another, and a walk that has reached the end stays there.

Main statements: `wireAt?_eq_getElem?` (counting through the three sides is counting through the
list of wires) and `drain_fst` (what a cursor still yields are the wires from its place on).
-/

namespace RankOne

/-- The wire at a place, counting through the left, the right and the output side. -/
def Constraint.wireAt? (c : Constraint) (i : Nat) : Option Wire :=
  let leftEnd := c.left.length
  let rightEnd := leftEnd + c.right.length
  if i < leftEnd then c.left.terms[i]?.map Term.wire
  else if i < rightEnd then c.right.terms[i - leftEnd]?.map Term.wire
  else c.output.terms[i - rightEnd]?.map Term.wire

/-- Counting through the three sides is counting through the list of wires. -/
theorem Constraint.wireAt?_eq_getElem? (c : Constraint) (i : Nat) :
    c.wireAt? i = c.wires[i]? := by
  simp only [wireAt?, wires, LinearExpression.wires, LinearExpression.length,
    List.getElem?_append, List.getElem?_map, List.length_append, List.length_map]
  by_cases hl : i < c.left.terms.length
  · have hlr : i < c.left.terms.length + c.right.terms.length := by omega
    simp [hl, hlr]
  · by_cases hr : i < c.left.terms.length + c.right.terms.length
    · simp [hl, hr]
    · simp [hl, hr]

/-- A place in a constraint's wires. -/
structure Cursor where
  constraint : Constraint
  position : Nat := 0
deriving DecidableEq

namespace Cursor

/-- A cursor at the first wire. -/
def start (c : Constraint) : Cursor := { constraint := c }

/-- The place after the last wire. -/
def finish (c : Cursor) : Nat :=
  c.constraint.left.length + c.constraint.right.length + c.constraint.output.length

/-- How many wires are left. -/
def length (c : Cursor) : Nat := c.finish - min c.position c.finish

/-- The next wire, and the cursor after it. At the end the cursor stays where it is. -/
def next (c : Cursor) : Option Wire × Cursor :=
  match c.constraint.wireAt? c.position with
  | some w => (some w, { c with position := c.position + 1 })
  | none => (none, c)

theorem finish_eq_length_wires (c : Cursor) : c.finish = c.constraint.wires.length := by
  simp only [finish, Constraint.wires, LinearExpression.wires, LinearExpression.length,
    List.length_append, List.length_map]

/-- A wire that is yielded is no longer left. -/
theorem length_lt_of_next {c d : Cursor} {w : Wire} (h : c.next = (some w, d)) :
    d.length < c.length := by
  unfold next at h
  rw [Constraint.wireAt?_eq_getElem?] at h
  split at h
  · rename_i w' hw
    obtain ⟨-, rfl⟩ := Prod.mk.inj h
    obtain ⟨hlt, -⟩ := List.getElem?_eq_some_iff.mp hw
    rw [← finish_eq_length_wires] at hlt
    have hfinish : finish { c with position := c.position + 1 } = c.finish := rfl
    simp only [length, hfinish]
    omega
  · cases h

/-- All wires that are left, and the cursor after them. -/
def drain (c : Cursor) : List Wire × Cursor :=
  match _h : c.next with
  | (none, d) => ([], d)
  | (some w, d) => (w :: d.drain.1, d.drain.2)
termination_by c.length
decreasing_by all_goals exact length_lt_of_next (by assumption)

/-- All wires that are left. -/
def rest (c : Cursor) : List Wire := c.drain.1

/-- How many wires a walk to the end meets. -/
def count (c : Cursor) : Nat := c.rest.length

/-- The last wire that is left. -/
def last? (c : Cursor) : Option Wire := c.rest.getLast?

/-- The greatest wire that is left. -/
def max? (c : Cursor) : Option Wire := c.rest.max?

/-- Leaves out some wires and yields the next one. -/
def nth : Nat → Cursor → Option Wire × Cursor
  | 0, c => c.next
  | skipped + 1, c =>
    match c.next with
    | (none, d) => (none, d)
    | (some _, d) => nth skipped d

/-- What a cursor still yields are the wires from its place on. -/
theorem drain_fst (c : Cursor) : c.drain.1 = c.constraint.wires.drop c.position := by
  fun_induction drain c with
  | case1 c d h =>
    unfold next at h
    rw [Constraint.wireAt?_eq_getElem?] at h
    split at h
    · cases h
    · rename_i hw
      exact (List.drop_eq_nil_of_le (List.getElem?_eq_none_iff.mp hw)).symm
  | case2 c w d h ih =>
    unfold next at h
    rw [Constraint.wireAt?_eq_getElem?] at h
    split at h
    · rename_i w' hw
      obtain ⟨hw', rfl⟩ := Prod.mk.inj h
      obtain ⟨hlt, hget⟩ := List.getElem?_eq_some_iff.mp hw
      rw [List.drop_eq_getElem_cons hlt, ih, hget, Option.some.inj hw']
    · cases h

end Cursor

end RankOne

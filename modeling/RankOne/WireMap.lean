import Std.Data.ExtTreeMap
import RankOne.Wire

/-!
# Numbers on wires

A partial map from wires to numbers. It says which hint computes a wire, and at which level a wire
is produced. Two maps are equal when they give the same numbers, however they came about.

Main statements: `get?_assign` (assigning a number to some wires changes these and no others) and
`mem_wires` (the listed wires are those with a number, each once by `nodup_wires`).
-/

namespace RankOne

/-- A number for each of some wires. -/
structure WireMap where
  table : Std.ExtTreeMap Nat Nat := {}

namespace WireMap

/-- The map that gives no numbers. -/
def empty : WireMap := {}

/-- The number of a wire. -/
def get? (m : WireMap) (w : Wire) : Option Nat := m.table[w.index]?

/-- Gives a number to some wires, in place of any that they had. -/
def assign (m : WireMap) (ws : List Wire) (n : Nat) : WireMap :=
  ⟨ws.foldl (fun table w => table.insert w.index n) m.table⟩

/-- The wires with a number, in order. -/
def wires (m : WireMap) : List Wire := m.table.keys.map Wire.mk

/-- How many wires have a number. -/
def size (m : WireMap) : Nat := m.table.size

theorem ext_get? {m m' : WireMap} (h : ∀ w, m.get? w = m'.get? w) : m = m' := by
  obtain ⟨table⟩ := m
  obtain ⟨table'⟩ := m'
  congr 1
  exact Std.ExtTreeMap.ext_getElem? fun k => h ⟨k⟩

@[simp] theorem get?_empty (w : Wire) : empty.get? w = none := by
  simp [get?, empty]

private theorem getElem?_foldl_insert (table : Std.ExtTreeMap Nat Nat) (ws : List Wire) (n : Nat)
    (w : Wire) :
    (ws.foldl (fun table w => table.insert w.index n) table)[w.index]? =
      if w ∈ ws then some n else table[w.index]? := by
  induction ws generalizing table with
  | nil => simp
  | cons v ws ih =>
    rw [List.foldl_cons, ih]
    by_cases hmem : w ∈ ws
    · simp [hmem]
    · by_cases hv : w = v
      · simp [hv]
      · have hindex : v.index ≠ w.index := fun h => hv (Wire.ext h.symm)
        simp [hmem, hv, Std.ExtTreeMap.getElem?_insert, hindex]

/-- Assigning a number to some wires changes these and no others. -/
theorem get?_assign (m : WireMap) (ws : List Wire) (n : Nat) (w : Wire) :
    (m.assign ws n).get? w = if w ∈ ws then some n else m.get? w :=
  getElem?_foldl_insert m.table ws n w

/-- The listed wires are those with a number. -/
theorem mem_wires {m : WireMap} {w : Wire} : w ∈ m.wires ↔ ∃ n, m.get? w = some n := by
  have hkeys : w ∈ m.wires ↔ w.index ∈ m.table := by
    rw [wires, List.mem_map]
    constructor
    · rintro ⟨k, hk, rfl⟩
      exact Std.ExtTreeMap.mem_keys.mp hk
    · intro hk
      exact ⟨w.index, Std.ExtTreeMap.mem_keys.mpr hk, rfl⟩
  rw [hkeys, Std.ExtTreeMap.mem_iff_isSome_getElem?, Option.isSome_iff_exists]
  rfl

/-- No wire is listed twice. -/
theorem nodup_wires (m : WireMap) : m.wires.Nodup := by
  refine List.Pairwise.map Wire.mk ?_ Std.ExtTreeMap.nodup_keys
  intro i j hne heq
  exact hne (congrArg Wire.index heq)

theorem length_wires (m : WireMap) : m.wires.length = m.size := by
  rw [wires, List.length_map, Std.ExtTreeMap.length_keys, size]

end WireMap

end RankOne

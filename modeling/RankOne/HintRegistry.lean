import RankOne.Hint
import RankOne.Layout
import RankOne.WireMap

/-!
# Registered hints

Hints are registered one after another, and each of their output wires is entered under the hint
that computes it. Outputs are declared internal wires and belong to one hint only.

Main statement: `place?_push` (registering a hint enters its outputs and leaves every other wire
with the hint that it has).
-/

namespace RankOne

/-- The registered hints, and for each of their output wires the place of its hint. -/
structure HintRegistry where
  hints : Array Hint := #[]
  places : WireMap := {}

namespace HintRegistry

/-- The place of the hint that computes a wire. -/
def place? (r : HintRegistry) (w : Wire) : Option Nat := r.places.get? w

/-- The hint that computes a wire, and its place. -/
def producer? (r : HintRegistry) (w : Wire) : Option (Nat × Hint) :=
  (r.place? w).bind fun i => r.hints[i]?.map fun h => (i, h)

/-- The output wires of all hints, in the order of the wires. -/
def outputWires (r : HintRegistry) : List Wire := r.places.wires

/-- How many wires are computed by hints. -/
def outputCount (r : HintRegistry) : Nat := r.places.size

/-- Refuses the first output that is undeclared, an input, computed by another hint or repeated. The
first list holds the outputs that were looked at before. -/
def checkOutputs (r : HintRegistry) (l : Layout) : List Wire → List Wire → Except Fault Unit
  | _, [] => .ok ()
  | earlier, w :: rest =>
    match l.check w with
    | .error fault => .error fault
    | .ok () =>
      if l.isInput w then .error (.hintOutputIsInput w)
      else if (r.place? w).isSome || w ∈ earlier then .error (.hintOutputTaken w)
      else checkOutputs r l (w :: earlier) rest

/-- Refuses the first argument wire that is undeclared, then the first output that will not do. -/
def check (r : HintRegistry) (l : Layout) (h : Hint) : Except Fault Unit :=
  match h.inputWires.forM l.check with
  | .error fault => .error fault
  | .ok () => r.checkOutputs l [] h.outputs

/-- Enters a hint and its outputs. -/
def push (r : HintRegistry) (h : Hint) : HintRegistry where
  hints := r.hints.push h
  places := r.places.assign h.outputs r.hints.size

/-- Registers a hint under the next place: the place, and the registry after it. -/
def register (r : HintRegistry) (l : Layout) (h : Hint) : Except Fault Nat × HintRegistry :=
  match r.check l h with
  | .error fault => (.error fault, r)
  | .ok () => (.ok r.hints.size, r.push h)

/-! ## Lemmas -/

/-- Registering a hint enters its outputs and leaves every other wire as it is. -/
theorem place?_push (r : HintRegistry) (h : Hint) (w : Wire) :
    (r.push h).place? w = if w ∈ h.outputs then some r.hints.size else r.place? w :=
  WireMap.get?_assign _ _ _ _

theorem getElem?_hints_push (r : HintRegistry) (h : Hint) (i : Nat) :
    (r.push h).hints[i]? = if i = r.hints.size then some h else r.hints[i]? :=
  Array.getElem?_push

/-- A producer is the registered hint at the place that its outputs are entered under. -/
theorem producer?_eq_some_iff {r : HintRegistry} {w : Wire} {i : Nat} {h : Hint} :
    r.producer? w = some (i, h) ↔ r.place? w = some i ∧ r.hints[i]? = some h := by
  simp only [producer?, Option.bind_eq_some_iff, Option.map_eq_some_iff, Prod.mk.injEq]
  constructor
  · rintro ⟨j, hplace, g, hget, rfl, rfl⟩
    exact ⟨hplace, hget⟩
  · rintro ⟨hplace, hget⟩
    exact ⟨i, hplace, h, hget, rfl, rfl⟩

/-- The place of a producer is one of the registry. -/
theorem lt_size_of_producer? {r : HintRegistry} {w : Wire} {i : Nat} {h : Hint}
    (hp : r.producer? w = some (i, h)) : i < r.hints.size :=
  (Array.getElem?_eq_some_iff.mp (producer?_eq_some_iff.mp hp).2).1

end HintRegistry

end RankOne

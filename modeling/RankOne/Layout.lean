import RankOne.Fault

/-!
# The layout of the wires

Wires are numbered in the order `1 | public inputs | secret inputs | internal wires`. A declaration
takes the next place and is refused when it would break that order. Only inputs have names.

Main statements: `name?_eq_getElem?` (the names follow the wires) and `check_eq_ok_iff` (exactly the
first `wireCount` wires are declared).
-/

namespace RankOne

/-- The declared wires. The constant one is always there and is not recorded. -/
structure Layout where
  /-- Names of the public inputs, in order, without the constant one. -/
  publicInputs : Array String := #[]
  /-- Names of the secret inputs, in order. -/
  secretInputs : Array String := #[]
  /-- How many wires are internal. -/
  internalCount : Nat := 0
deriving DecidableEq

namespace Layout

/-- The name of the constant-one wire. -/
def oneName : String := "1"

/-- The names of the public inputs, the constant one first. -/
def publicNames (l : Layout) : List String := oneName :: l.publicInputs.toList

/-- The names of the secret inputs. -/
def secretNames (l : Layout) : List String := l.secretInputs.toList

/-- The names of all inputs, in the order of their wires. -/
def inputNames (l : Layout) : List String := l.publicNames ++ l.secretNames

/-- How many wires are public, the constant one included. -/
def publicCount (l : Layout) : Nat := l.publicInputs.size + 1

/-- How many wires are secret. -/
def secretCount (l : Layout) : Nat := l.secretInputs.size

/-- How many wires are inputs, the constant one included. -/
def inputCount (l : Layout) : Nat := l.publicCount + l.secretCount

/-- How many wires are declared. -/
def wireCount (l : Layout) : Nat := l.inputCount + l.internalCount

/-- Whether a wire is an input, the constant one included. -/
def isInput (l : Layout) (w : Wire) : Bool := w.index < l.inputCount

/-- The name of an input. -/
def name? (l : Layout) (w : Wire) : Option String :=
  match w.index with
  | 0 => some oneName
  | i + 1 =>
    if i < l.publicInputs.size then l.publicInputs[i]?
    else l.secretInputs[i - l.publicInputs.size]?

/-- Refuses a wire that is not declared. -/
def check (l : Layout) (w : Wire) : Except Fault Unit :=
  if w.index < l.wireCount then .ok () else .error (.undeclaredWire w l.wireCount)

/-- The inputs besides the constant one, in order. -/
def declaredInputs (l : Layout) : List Wire := (List.range' 1 (l.inputCount - 1)).map Wire.mk

/-- Declares the next public input: no secret input and no internal wire may be there yet. -/
def declarePublic (l : Layout) (name : String) : Except Fault (Wire × Layout) :=
  if 0 < l.secretInputs.size then .error (.publicAfterSecret name)
  else if 0 < l.internalCount then .error (.inputAfterInternal name)
  else .ok (⟨l.publicCount⟩, { l with publicInputs := l.publicInputs.push name })

/-- Declares the next secret input: no internal wire may be there yet. -/
def declareSecret (l : Layout) (name : String) : Except Fault (Wire × Layout) :=
  if 0 < l.internalCount then .error (.inputAfterInternal name)
  else .ok (⟨l.inputCount⟩, { l with secretInputs := l.secretInputs.push name })

/-- Declares the next internal wire. -/
def declareInternal (l : Layout) : Wire × Layout :=
  (⟨l.wireCount⟩, { l with internalCount := l.internalCount + 1 })

/-! ## Views -/

theorem length_inputNames (l : Layout) : l.inputNames.length = l.inputCount := by
  simp only [inputNames, publicNames, secretNames, inputCount, publicCount, secretCount,
    List.length_append, List.length_cons, Array.length_toList]

/-- The names follow the wires. -/
theorem name?_eq_getElem? (l : Layout) (w : Wire) : l.name? w = l.inputNames[w.index]? := by
  obtain ⟨i⟩ := w
  cases i with
  | zero => rfl
  | succ i =>
    simp only [name?, inputNames, publicNames, secretNames, List.cons_append,
      List.getElem?_cons_succ, List.getElem?_append, Array.length_toList, Array.getElem?_toList]

theorem isInput_iff {l : Layout} {w : Wire} : l.isInput w = true ↔ w.index < l.inputCount := by
  simp [isInput]

/-- Exactly the first `wireCount` wires are declared. -/
theorem check_eq_ok_iff {l : Layout} {w : Wire} : l.check w = .ok () ↔ w.index < l.wireCount := by
  unfold check
  split <;> simp_all

theorem inputCount_le_wireCount (l : Layout) : l.inputCount ≤ l.wireCount :=
  Nat.le_add_right _ _

theorem inputCount_pos (l : Layout) : 0 < l.inputCount := by
  unfold inputCount publicCount
  omega

end Layout

end RankOne

import RankOne.System

/-!
# Are all wires constrained?

An input that occurs in no constraint may take any value, and so may a hint's output. The check goes
through the constraints once, notes the wires of their terms with a coefficient other than `0`, and
stops after the constraint that has touched the last of them. It counts down what has not occurred
yet, and never counts a wire twice.
-/

namespace RankOne

/-- What has occurred in the constraints that were gone through. -/
structure Tally where
  /-- For each input, whether it has occurred. -/
  inputsSeen : Array Bool
  /-- How many inputs have not. -/
  inputsLeft : Nat
  /-- The outputs of hints that have occurred. -/
  outputsSeen : List Wire := []
  /-- How many outputs of hints have not. -/
  outputsLeft : Nat
deriving DecidableEq

namespace Tally

/-- The tally in which nothing has occurred. The constant one needs no constraint. -/
def start (l : Layout) (r : HintRegistry) : Tally where
  inputsSeen := (Array.replicate l.inputCount false).setIfInBounds 0 true
  inputsLeft := l.inputCount - 1
  outputsLeft := r.outputCount

/-- Notes that a wire occurs. -/
def note (r : HintRegistry) (t : Tally) (w : Wire) : Tally :=
  match t.inputsSeen[w.index]? with
  | some true => t
  -- a first occurrence is counted down, a further one is not
  | some false =>
    { t with
      inputsSeen := t.inputsSeen.setIfInBounds w.index true
      inputsLeft := t.inputsLeft - 1 }
  | none =>
    if (r.place? w).isSome && w ∉ t.outputsSeen then
      { t with
        outputsSeen := w :: t.outputsSeen
        outputsLeft := t.outputsLeft - 1 }
    else t

/-- Whether everything has occurred. -/
def isComplete (t : Tally) : Bool := t.inputsLeft = 0 && t.outputsLeft = 0

/-- The names of the inputs that have not occurred, in order. -/
def namesLeft (l : Layout) (t : Tally) : List String :=
  (t.inputsSeen.toList.zipIdx.filter fun (seen, _) => !seen).filterMap fun (_, i) => l.name? ⟨i⟩

end Tally

/-- What a check comes to: what it warns of, and its verdict. -/
structure Report where
  warnings : List Fault := []
  verdict : Except Fault Unit

namespace System

variable {F : Type}

/-- Notes wires, unless one of them is undeclared. -/
def noteAll (s : System F) : List Wire → Tally → Except Fault Tally
  | [], t => .ok t
  | w :: rest, t =>
    match s.layout.check w with
    | .error fault => .error fault
    | .ok () => s.noteAll rest (t.note s.hints w)

/-- Goes through constraints until the tally is complete. -/
def scan (s : System F) : List Constraint → Tally → Except Fault Tally
  | [], t => .ok t
  | c :: rest, t =>
    match s.noteAll c.nonzeroWires t with
    | .error fault => .error fault
    | .ok noted => if noted.isComplete then .ok noted else s.scan rest noted

/-- What follows from a tally: inputs that have not occurred are a fault, and the policy says
whether outputs of hints that have not are one, or merely to be warned of. -/
def judge (s : System F) (t : Tally) : Report :=
  if 0 < t.inputsLeft then { verdict := .error (.unconstrainedInputs (t.namesLeft s.layout)) }
  else if 0 < t.outputsLeft then
    match s.config.hintPolicy with
    | .warn => { warnings := [.unconstrainedHints t.outputsLeft], verdict := .ok () }
    | .deny => { verdict := .error (.unconstrainedHints t.outputsLeft) }
  else { verdict := .ok () }

/-- Reports whether every input and every output of a hint is constrained. -/
def reportCoverage (s : System F) : Report :=
  let start := Tally.start s.layout s.hints
  if start.inputsLeft = 0 then { verdict := .error .noInputs }
  else
    match s.scan s.constraints start with
    | .error fault => { verdict := .error fault }
    | .ok t => s.judge t

/-- Checks that every input and every output of a hint is constrained: the warnings of a system that
passes. -/
def checkCoverage (s : System F) : Except Fault (List Fault) :=
  s.reportCoverage.verdict.map fun () => s.reportCoverage.warnings

end System

end RankOne

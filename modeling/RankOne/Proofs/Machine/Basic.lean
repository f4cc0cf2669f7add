import RankOne.Cursor
import RankOne.Proofs.Machine.Word
import RankOne.System.Call
import RankOne.System.Coverage
import RankOne.System.Witness

/-!
# Systems on a machine

Every operation on a system, as a machine carries it out: in words, with reads and writes at places
that have to exist. An operation crashes or it comes to a result, which may be a fault. Nothing is
looked up more carefully here than there: where an operation relies on a place or on a count that
another one has left behind, the machine reads and counts down without asking.

A machine keeps the producing levels in a table with one place for each wire, up to the greatest
wire that was produced, and makes room in it when a greater one is (`Machine.enterLevel`).

Words and places are all that a machine can run out of. How much room a table or a list can be given
is a matter of the store that it lies in, and is left open: room is made without a limit.
-/

namespace RankOne

namespace Machine

/-! ## Cursors -/

/-- Where the left, the right and the output side of a constraint end. -/
def ends (c : Constraint) : Except Crash (Nat × Nat × Nat) := do
  let rightEnd ← plus c.left.length c.right.length
  let finish ← plus rightEnd c.output.length
  return (c.left.length, rightEnd, finish)

/-- Moves a cursor over a term. -/
def pass (c : Cursor) (t : Term) : Except Crash (Option Wire × Cursor) := do
  let position ← plus c.position 1
  return (some t.wire, { c with position := position })

/-- The next wire of a cursor, and the cursor after it. -/
def next (c : Cursor) : Except Crash (Option Wire × Cursor) := do
  let (leftEnd, rightEnd, finish) ← ends c.constraint
  if c.position < leftEnd then
    pass c (← fetch c.constraint.left.terms c.position)
  else if c.position < rightEnd then
    pass c (← fetch c.constraint.right.terms (← minus c.position leftEnd))
  else if c.position < finish then
    pass c (← fetch c.constraint.output.terms (← minus c.position rightEnd))
  else
    return (none, c)

/-- How many wires a cursor has left. -/
def remaining (c : Cursor) : Except Crash Nat := do
  let (_, _, finish) ← ends c.constraint
  minus finish (min c.position finish)

theorem eq_of_ends {c : Constraint} {l r f : Nat} (h : ends c = .ok (l, r, f)) :
    l = c.left.length ∧ r = c.left.length + c.right.length ∧
      f = c.left.length + c.right.length + c.output.length := by
  obtain ⟨rightEnd, hright, h⟩ := bind_eq_ok_iff.mp h
  obtain ⟨finish, hfinish, h⟩ := bind_eq_ok_iff.mp h
  cases h
  have hr := eq_of_plus hright
  have hf := eq_of_plus hfinish
  exact ⟨rfl, hr, by rw [hf, hr]⟩

theorem eq_of_pass {c : Cursor} {t : Term} {r : Option Wire × Cursor} (h : pass c t = .ok r) :
    r = (some t.wire, { c with position := c.position + 1 }) := by
  obtain ⟨position, hposition, h⟩ := bind_eq_ok_iff.mp h
  cases h
  rw [eq_of_plus hposition]

/-- A term that is read where the wire of the cursor stands leads to the next cursor. -/
theorem eq_of_fetch {c : Cursor} {ts : List Term} {i : Nat} {r : Option Wire × Cursor}
    (h : fetch ts i >>= pass c = .ok r)
    (hwire : c.constraint.wireAt? c.position = ts[i]?.map Term.wire) : r = c.next := by
  obtain ⟨t, ht, h⟩ := bind_eq_ok_iff.mp h
  rw [fetch_eq_ok_iff.mp ht, Option.map_some] at hwire
  rw [eq_of_pass h, Cursor.next, hwire]

/-- Where a machine finds a next wire, it is the right one. -/
theorem eq_of_next {c : Cursor} {r : Option Wire × Cursor} (h : next c = .ok r) : r = c.next := by
  obtain ⟨⟨leftEnd, rightEnd, finish⟩, hends, h⟩ := bind_eq_ok_iff.mp h
  obtain ⟨rfl, rfl, rfl⟩ := eq_of_ends hends
  have hwireAt := Constraint.wireAt?.eq_def c.constraint c.position
  by_cases hleft : c.position < c.constraint.left.length
  · simp only [if_pos hleft] at h hwireAt
    exact eq_of_fetch h hwireAt
  · by_cases hright : c.position < c.constraint.left.length + c.constraint.right.length
    · simp only [if_neg hleft, if_pos hright] at h hwireAt
      obtain ⟨i, hi, h⟩ := bind_eq_ok_iff.mp h
      rw [← eq_of_minus hi] at hwireAt
      exact eq_of_fetch h hwireAt
    · by_cases hfinish : c.position < c.finish
      · simp only [Cursor.finish] at hfinish
        simp only [if_neg hleft, if_neg hright, if_pos hfinish] at h hwireAt
        obtain ⟨i, hi, h⟩ := bind_eq_ok_iff.mp h
        rw [← eq_of_minus hi] at hwireAt
        exact eq_of_fetch h hwireAt
      · have hnone : c.constraint.wireAt? c.position = none := by
          rw [Constraint.wireAt?_eq_getElem?, List.getElem?_eq_none_iff, ← c.finish_eq_length_wires]
          omega
        simp only [Cursor.finish] at hfinish
        simp only [if_neg hleft, if_neg hright, if_neg hfinish] at h
        cases h
        rw [Cursor.next, hnone]

/-- The wires that a cursor has left, one after another. -/
def walk (c : Cursor) : Except Crash (List Wire) :=
  match _h : next c with
  | .error crash => .error crash
  | .ok (none, _) => .ok []
  | .ok (some w, d) => (walk d).map (w :: ·)
termination_by c.length
decreasing_by exact Cursor.length_lt_of_next (eq_of_next (by assumption)).symm

theorem walk_eq (c : Cursor) :
    walk c =
      match next c with
      | .error crash => .error crash
      | .ok (none, _) => .ok []
      | .ok (some w, d) => (walk d).map (w :: ·) := by
  rw [walk]
  split <;> rename_i heq <;> rw [heq]

/-! ## Layouts -/

/-- How many wires are inputs. -/
def inputCount (l : Layout) : Except Crash Nat := plus l.publicCount l.secretCount

/-- How many wires are declared. -/
def declaredCount (l : Layout) : Except Crash Nat := do
  plus (← inputCount l) l.internalCount

/-- Refuses a wire that is not declared. -/
def check (l : Layout) (w : Wire) : Except Crash (Except Fault Unit) := do
  if w.index < (← declaredCount l) then
    return .ok ()
  else
    return .error (.undeclaredWire w (← declaredCount l))

/-- Refuses the first of some wires that is not declared. -/
def checkAll (l : Layout) : List Wire → Except Crash (Except Fault Unit)
  | [] => return .ok ()
  | w :: rest => do
    match ← check l w with
    | .error fault => return .error fault
    | .ok () => checkAll l rest

/-- Whether a wire is an input. -/
def isInput (l : Layout) (w : Wire) : Except Crash Bool := do
  return decide (w.index < (← inputCount l))

/-- The name of an input. The names of the secret inputs are counted from the end of the public
ones. -/
def name? (l : Layout) (w : Wire) : Option String :=
  if w.index < l.publicCount then l.publicNames[w.index]?
  else l.secretNames[w.index - l.publicCount]?

/-- Declares the next public input, whose place is the last one. -/
def declarePublic (l : Layout) (name : String) : Except Crash (Except Fault (Wire × Layout)) := do
  if 0 < l.secretInputs.size then
    return .error (.publicAfterSecret name)
  else if 0 < l.internalCount then
    return .error (.inputAfterInternal name)
  else
    let after := { l with publicInputs := l.publicInputs.push name }
    return .ok (⟨← minus after.publicCount 1⟩, after)

/-- Declares the next secret input, whose place is the last one. -/
def declareSecret (l : Layout) (name : String) : Except Crash (Except Fault (Wire × Layout)) := do
  if 0 < l.internalCount then
    return .error (.inputAfterInternal name)
  else
    let after := { l with secretInputs := l.secretInputs.push name }
    return .ok (⟨← minus (← inputCount after) 1⟩, after)

/-- Declares the next internal wire. -/
def declareInternal (l : Layout) : Except Crash (Wire × Layout) := do
  let index ← declaredCount l
  let internalCount ← plus l.internalCount 1
  return (⟨index⟩, { l with internalCount := internalCount })

/-! ## Hints -/

/-- Refuses the first output that is undeclared, an input, computed by another hint, or one of the
outputs before it. -/
def checkOutputs (r : HintRegistry) (l : Layout) (outputs : List Wire) :
    Nat → List Wire → Except Crash (Except Fault Unit)
  | _, [] => return .ok ()
  | i, w :: rest => do
    match ← check l w with
    | .error fault => return .error fault
    | .ok () =>
      if ← isInput l w then
        return .error (.hintOutputIsInput w)
      else if (r.place? w).isSome then
        return .error (.hintOutputTaken w)
      else if w ∈ (← before outputs i) then
        return .error (.hintOutputTaken w)
      else
        checkOutputs r l outputs (i + 1) rest

/-- Registers a hint under the next place: the place, and the registry after it. -/
def register (r : HintRegistry) (l : Layout) (h : Hint) :
    Except Crash (Except Fault Nat × HintRegistry) := do
  match ← checkAll l h.inputWires with
  | .error fault => return (.error fault, r)
  | .ok () =>
    match ← checkOutputs r l h.outputs 0 h.outputs with
    | .error fault => return (.error fault, r)
    | .ok () => return (.ok r.hints.size, r.push h)

/-! ## Coverage -/

/-- Notes that a wire occurs, and counts down. -/
def note (r : HintRegistry) (t : Tally) (w : Wire) : Except Crash Tally := do
  match t.inputsSeen[w.index]? with
  | some true => return t
  | some false =>
    let inputsLeft ← minus t.inputsLeft 1
    return { t with
      inputsSeen := t.inputsSeen.setIfInBounds w.index true
      inputsLeft := inputsLeft }
  | none =>
    if (r.place? w).isSome && w ∉ t.outputsSeen then
      let outputsLeft ← minus t.outputsLeft 1
      return { t with
        outputsSeen := w :: t.outputsSeen
        outputsLeft := outputsLeft }
    else
      return t

variable {F : Type}

/-- Notes wires, unless one of them is undeclared. -/
def noteAll (s : System F) : List Wire → Tally → Except Crash (Except Fault Tally)
  | [], t => return .ok t
  | w :: rest, t => do
    match ← check s.layout w with
    | .error fault => return .error fault
    | .ok () => noteAll s rest (← note s.hints t w)

/-- Goes through constraints until the tally is complete. -/
def scan (s : System F) : List Constraint → Tally → Except Crash (Except Fault Tally)
  | [], t => return .ok t
  | c :: rest, t => do
    match ← noteAll s c.nonzeroWires t with
    | .error fault => return .error fault
    | .ok noted => if noted.isComplete then return .ok noted else scan s rest noted

/-- The tally in which nothing has occurred. The flag of the constant one is set. -/
def startTally (s : System F) : Except Crash Tally := do
  let flags ← store (Array.replicate (← inputCount s.layout) false) 0 true
  let inputsLeft ← minus flags.size 1
  return { inputsSeen := flags, inputsLeft := inputsLeft, outputsLeft := s.hints.outputCount }

/-- Reports whether every input and every output of a hint is constrained. -/
def reportCoverage (s : System F) : Except Crash Report := do
  let start ← startTally s
  if start.inputsLeft = 0 then
    return { verdict := .error .noInputs }
  else
    match ← scan s s.constraints start with
    | .error fault => return { verdict := .error fault }
    | .ok t => return s.judge t

/-- Checks a witness, whose size is that of the declared wires. -/
def checkWitness [Zero F] [One F] [Add F] [Neg F] [Mul F] [DecidableEq F] [ToString F]
    (s : System F) (witness : Array F) : Except Crash (Except Fault Unit) := do
  let expected ← declaredCount s.layout
  if witness.size ≠ expected then
    return .error (.witnessLength expected witness.size)
  else if witness[0]? ≠ some 1 then
    return .error .oneWireNotOne
  else
    return s.checkEntries witness 0 s.entries.toList

end Machine

/-- A system whose producing levels stand in a table. -/
structure Machine (F : Type) where
  /-- All but the producing levels. -/
  system : System F := {}
  /-- The producing level of each wire at the place of the wire. -/
  wireLevels : Array (Option Nat) := #[]

namespace Machine

variable {F : Type}

/-- A machine on which nothing is declared. -/
def empty (config : Config) : Machine F := { system := .empty config }

/-! ## Levels -/

/-- The producing level of a wire. -/
def wireLevel? (m : Machine F) (w : Wire) : Option Nat := m.wireLevels[w.index]?.join

/-- What a wire is to a constraint that reads it. A hint that computes it is fetched at its place,
whether or not the sweep has expanded it before. -/
def role (m : Machine F) (w : Wire) : Except Crash (Except Fault Role) := do
  match ← check m.system.layout w with
  | .error fault => return .error fault
  | .ok () =>
    if ← isInput m.system.layout w then
      return .ok .known
    else
      match m.wireLevel? w with
      | some level => return .ok (.produced level)
      | none =>
        match m.system.hints.place? w with
        | some i => return .ok (.hinted i (← fetch m.system.hints.hints.toList i))
        | none => return .ok .free

/-- Meets a wire. The level above each producer has to be a word, not only that above the highest
one. -/
def meet (v : Sweep) (w : Wire) : Role → Except Crash Sweep
  | .produced level => do
    let above ← plus level 1
    return { v with level := max v.level above }
  | r => return v.meet w r

/-- One turn of a sweep. -/
def advance (m : Machine F) (v : Sweep) : Except Crash (Except Fault (Option Sweep)) := do
  match v.pending with
  | [] => return .ok none
  | w :: rest =>
    match ← m.role w with
    | .error fault => return .error fault
    | .ok r => return .ok (some (← meet { v with pending := rest } w r))

theorem eq_of_meet {v v' : Sweep} {w : Wire} {r : Role} (h : meet v w r = .ok v') :
    v' = v.meet w r := by
  cases r with
  | produced level =>
      obtain ⟨above, habove, h⟩ := bind_eq_ok_iff.mp h
      cases h
      rw [eq_of_plus habove]
      rfl
  | known | hinted | free => exact (Except.ok.inj h).symm

/-- Only hints at their places are expanded. -/
theorem lt_size_of_role {m : Machine F} {w : Wire} {i : Nat} {h : Hint}
    (hrole : m.role w = .ok (.ok (.hinted i h))) : i < m.system.hints.hints.size := by
  obtain ⟨checked, -, hrole⟩ := bind_eq_ok_iff.mp hrole
  cases checked with
  | error fault => cases hrole
  | ok =>
      obtain ⟨input, -, hrole⟩ := bind_eq_ok_iff.mp hrole
      split at hrole
      · cases hrole
      · split at hrole
        · cases hrole
        · split at hrole
          · obtain ⟨g, hget, hrole⟩ := bind_eq_ok_iff.mp hrole
            cases hrole
            have hsome := fetch_eq_ok_iff.mp hget
            rw [Array.getElem?_toList] at hsome
            exact (Array.getElem?_eq_some_iff.mp hsome).1
          · cases hrole

/-- Each turn expands a hint or takes a wire off the stack without putting others on it. -/
theorem advance_decreases {m : Machine F} {v v' : Sweep}
    (h : m.advance v = .ok (.ok (some v'))) :
    Prod.Lex (· < ·) (· < ·)
      (v'.unexpanded m.system.hints.hints.size, v'.pending.length)
      (v.unexpanded m.system.hints.hints.size, v.pending.length) := by
  unfold advance at h
  split at h
  · cases h
  · rename_i w rest hpending
    obtain ⟨outcome, hrole, h⟩ := bind_eq_ok_iff.mp h
    cases outcome with
    | error fault => cases h
    | ok r =>
        obtain ⟨met, hmet, h⟩ := bind_eq_ok_iff.mp h
        cases h
        rw [eq_of_meet hmet]
        refine Sweep.meet_decreases hpending ?_
        rintro i hint rfl
        exact lt_size_of_role hrole

/-- Goes on with a sweep to its end, unless it meets an undeclared wire. -/
def sweepFrom (m : Machine F) (v : Sweep) : Except Crash (Except Fault Sweep) :=
  match _h : m.advance v with
  | .error crash => .error crash
  | .ok (.error fault) => .ok (.error fault)
  | .ok (.ok none) => .ok (.ok v)
  | .ok (.ok (some v')) => m.sweepFrom v'
termination_by (v.unexpanded m.system.hints.hints.size, v.pending.length)
decreasing_by exact advance_decreases (by assumption)

theorem sweepFrom_eq (m : Machine F) (v : Sweep) :
    m.sweepFrom v =
      match m.advance v with
      | .error crash => .error crash
      | .ok (.error fault) => .ok (.error fault)
      | .ok (.ok none) => .ok (.ok v)
      | .ok (.ok (some v')) => m.sweepFrom v' := by
  rw [sweepFrom]
  split <;> rename_i heq <;> rw [heq]

/-- Makes room for `n` wires, however many these are. The new ones have no producing level. -/
def grow (table : Array (Option Nat)) (n : Nat) : Array (Option Nat) :=
  table ++ Array.replicate (n - table.size) none

/-- Enters the producing level of a wire, for which there may be no room yet. -/
def enterLevel (level : Nat) (table : Array (Option Nat)) (w : Wire) :
    Except Crash (Array (Option Nat)) := do
  if table.size ≤ w.index then
    store (grow table (← plus w.index 1)) w.index (some level)
  else
    store table w.index (some level)

/-- Records what leveling the next constraint has decided. -/
def record (m : Machine F) (d : Leveled) : Except Crash (Machine F) := do
  let wireLevels ← d.outputs.foldlM (enterLevel d.level) m.wireLevels
  return {
    system := { m.system with
      schedule := { m.system.schedule with
        levels := Schedule.enter m.system.schedule.levels d.level d.cid
        constraintLevels := m.system.schedule.constraintLevels.push d.level } }
    wireLevels := wireLevels }

/-- Gives the next constraint its level, for the wires that it is said to read: what is decided, and
the machine after it. -/
def level (m : Machine F) (cid : Nat) (reads : List Wire) :
    Except Crash (Except Fault Leveled × Machine F) := do
  if cid ≠ m.system.schedule.leveledCount then
    return (.error (.levelOutOfOrder m.system.schedule.leveledCount cid), m)
  else if m.system.entries.size ≤ cid then
    return (.error (.unknownConstraint cid m.system.entries.size), m)
  else
    match ← m.sweepFrom (.start reads) with
    | .error fault => return (.error fault, m)
    | .ok v =>
      let decided : Leveled := ⟨cid, v.level, reads, v.outputs, v.expanded⟩
      return (.ok decided, ← m.record decided)

/-- Stores a constraint and gives it a level for its own wires, which are walked over. -/
def appendLeveled (m : Machine F) (c : Constraint) (source : Option Provenance) :
    Except Crash (Except Fault Leveled × Machine F) := do
  let wires ← walk (.start c)
  match ← checkAll m.system.layout wires with
  | .error fault => return (.error fault, m)
  | .ok () =>
    let (cid, system) := m.system.append c source
    { m with system := system }.level cid wires

/-! ## Calls -/

/-- The machine after a declaration. -/
def setLayout (m : Machine F) (l : Layout) : Machine F :=
  { m with system := { m.system with layout := l } }

/-- Takes over what has become of a declaration: the wire, and the machine after it. -/
def declare (m : Machine F) : Except Fault (Wire × Layout) → Except Fault Wire × Machine F
  | .error fault => (.error fault, m)
  | .ok (w, l) => (.ok w, m.setLayout l)

/-- The machine after a registration. -/
def setHints (m : Machine F) (hints : HintRegistry) : Machine F :=
  { m with system := { m.system with hints := hints } }

variable [Zero F] [One F] [Add F] [Neg F] [DecidableEq F]

/-- Makes one call: its answer, and the machine after it. -/
def call (m : Machine F) : Call F → Except Crash (Except Fault Answer × Machine F)
  | .declarePublic name => do
    return reply .wire (m.declare (← declarePublic m.system.layout name))
  | .declareSecret name => do
    return reply .wire (m.declare (← declareSecret m.system.layout name))
  | .declareInternal => do
    let (w, l) ← declareInternal m.system.layout
    return (.ok (.wire w), m.setLayout l)
  | .intern value =>
    return (.ok (.coeff (m.system.intern value).1),
      { m with system := (m.system.intern value).2 })
  | .term value wire =>
    return (.ok (.term ⟨(m.system.intern value).1, wire⟩),
      { m with system := (m.system.intern value).2 })
  | .register hint => do
    let (place, hints) ← register m.system.hints m.system.layout hint
    return reply .hint (place, m.setHints hints)
  | .append c source =>
    return (.ok (.constraint (m.system.append c source).1),
      { m with system := (m.system.append c source).2 })
  | .appendLeveled c source => do
    return reply .leveled (← m.appendLeveled c source)
  | .level cid reads => do
    return reply .leveled (← m.level cid reads)

/-- The answers to a list of calls, and the machine after them. -/
def run (m : Machine F) : List (Call F) → Except Crash (List (Except Fault Answer) × Machine F)
  | [] => return ([], m)
  | c :: rest => do
    let (answer, after) ← m.call c
    let (answers, last) ← after.run rest
    return (answer :: answers, last)

end Machine

end RankOne

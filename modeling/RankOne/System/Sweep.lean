import RankOne.System

/-!
# What a constraint reads

Leveling a constraint starts from the wires that it reads and sweeps over all they lead to. A wire
is known from the start, or produced by an earlier constraint, or computed by a hint, or free. A
hint computes its outputs from its arguments, so a constraint that reads one of them reads the
arguments too and produces all the outputs; a free wire it produces itself.

Wires wait on a stack. A hint is expanded once, so the sweep ends on every graph of hints, also when
hints read their own outputs: `advance_decreases` says that each turn either expands a hint or takes
a wire off the stack.
-/

namespace RankOne

/-- What a wire is to a constraint that reads it. -/
inductive Role where
  /-- The wire is an input. -/
  | known
  /-- The wire is produced at this level. -/
  | produced (level : Nat)
  /-- The wire is yet to be computed by the hint at this place. -/
  | hinted (index : Nat) (hint : Hint)
  /-- The wire is yet to be produced. -/
  | free

/-- How far a sweep has come. -/
structure Sweep where
  /-- The wires that wait, the next one first. -/
  pending : List Wire
  /-- One above the highest level met, or zero. -/
  level : Nat := 0
  /-- The wires that the constraint has to produce, each once. -/
  outputs : List Wire := []
  /-- The places of the hints that were expanded, the last one first. -/
  expanded : List Nat := []
deriving DecidableEq

namespace Sweep

/-- A sweep that starts from the wires a constraint reads. The last one is the first to be met. -/
def start (reads : List Wire) : Sweep := { pending := reads.reverse }

/-- Meets the wire that was taken off the stack. -/
def meet (v : Sweep) (w : Wire) : Role → Sweep
  | .known => v
  | .produced level => { v with level := max v.level (level + 1) }
  | .hinted i h =>
    if i ∈ v.expanded then v
    else
      { v with
        pending := h.inputWires.reverse ++ v.pending
        outputs := h.outputs.foldl (fun outputs w => outputs.insert w) v.outputs
        expanded := i :: v.expanded }
  | .free => { v with outputs := v.outputs.insert w }

/-- How many of the first `count` hints are not expanded. -/
def unexpanded (count : Nat) (v : Sweep) : Nat :=
  (List.range count).countP fun i => i ∉ v.expanded

private theorem countP_lt_countP {α : Type} {p q : α → Bool} {xs : List α} {a : α}
    (hpq : ∀ x, p x = true → q x = true) (ha : a ∈ xs) (hq : q a = true) (hp : p a = false) :
    xs.countP p < xs.countP q := by
  induction xs with
  | nil => cases ha
  | cons x xs ih =>
    have hle : xs.countP p ≤ xs.countP q := List.countP_mono_left fun y _ => hpq y
    rcases List.mem_cons.mp ha with rfl | hmem
    · simp only [List.countP_cons, hq, hp]
      simp only [Bool.false_eq_true, if_false, if_true]
      omega
    · have hlt := ih hmem
      have hx := hpq x
      simp only [List.countP_cons]
      split
      · rename_i hpx
        simp only [hx hpx, if_true]
        omega
      · split <;> omega

/-- Expanding a hint leaves fewer of them unexpanded. -/
theorem unexpanded_meet_lt {v : Sweep} {w : Wire} {i count : Nat} {h : Hint}
    (hi : i < count) (hnew : i ∉ v.expanded) :
    (v.meet w (.hinted i h)).unexpanded count < v.unexpanded count := by
  simp only [meet, hnew, if_false, unexpanded]
  refine countP_lt_countP ?_ (List.mem_range.mpr hi) (by simpa using hnew) (by simp)
  intro x hx
  simp only [List.mem_cons, not_or, decide_eq_true_eq] at hx ⊢
  exact hx.2

/-- To meet a wire that was taken off the stack either expands one of the first `count` hints or
puts no others on it. -/
theorem meet_decreases {v : Sweep} {w : Wire} {rest : List Wire} {role : Role} {count : Nat}
    (hpending : v.pending = w :: rest) (hrole : ∀ i h, role = .hinted i h → i < count) :
    Prod.Lex (· < ·) (· < ·)
      ((({ v with pending := rest } : Sweep).meet w role).unexpanded count,
        (({ v with pending := rest } : Sweep).meet w role).pending.length)
      (v.unexpanded count, v.pending.length) := by
  have hshorter : rest.length < v.pending.length := by
    rw [hpending]
    exact Nat.lt_succ_self _
  cases role with
  | known => exact Prod.Lex.right _ hshorter
  | produced level => exact Prod.Lex.right _ hshorter
  | free => exact Prod.Lex.right _ hshorter
  | hinted i hint =>
    by_cases hold : i ∈ v.expanded
    · rw [show ({ v with pending := rest } : Sweep).meet w (.hinted i hint) =
        { v with pending := rest } by simp [meet, hold]]
      exact Prod.Lex.right _ hshorter
    · exact Prod.Lex.left _ _ (unexpanded_meet_lt (hrole i hint rfl) hold)

end Sweep

namespace System

variable {F : Type}

/-- What a wire is to a constraint that reads it, unless it is undeclared. -/
def role (s : System F) (w : Wire) : Except Fault Role :=
  match s.layout.check w with
  | .error fault => .error fault
  | .ok () =>
    if s.layout.isInput w then .ok .known
    else
      match s.schedule.wireLevel? w with
      | some level => .ok (.produced level)
      | none =>
        match s.hints.producer? w with
        | some (i, h) => .ok (.hinted i h)
        | none => .ok .free

/-- One turn of a sweep: the next wire is taken off the stack and met. There is none at the end. -/
def advance (s : System F) (v : Sweep) : Except Fault (Option Sweep) :=
  match v.pending with
  | [] => .ok none
  | w :: rest => (s.role w).map fun role => some ({ v with pending := rest }.meet w role)

/-- Only registered hints are expanded. -/
theorem lt_size_of_role_eq_hinted {s : System F} {w : Wire} {i : Nat} {h : Hint}
    (hrole : s.role w = .ok (.hinted i h)) : i < s.hints.hints.size := by
  unfold role at hrole
  split at hrole
  · cases hrole
  · split at hrole
    · cases hrole
    · split at hrole
      · cases hrole
      · split at hrole
        · rename_i i' h' hproducer
          cases hrole
          exact HintRegistry.lt_size_of_producer? hproducer
        · cases hrole

/-- Each turn expands a hint or takes a wire off the stack without putting others on it. -/
theorem advance_decreases {s : System F} {v v' : Sweep} (h : s.advance v = .ok (some v')) :
    Prod.Lex (· < ·) (· < ·)
      (v'.unexpanded s.hints.hints.size, v'.pending.length)
      (v.unexpanded s.hints.hints.size, v.pending.length) := by
  unfold advance at h
  split at h
  · cases h
  · rename_i w rest hpending
    cases hrole : s.role w with
    | error fault =>
      rw [hrole] at h
      cases h
    | ok role =>
      rw [hrole] at h
      cases h
      refine Sweep.meet_decreases hpending ?_
      rintro i hint rfl
      exact lt_size_of_role_eq_hinted hrole

/-- Goes on with a sweep to its end, unless it meets an undeclared wire. -/
def sweepFrom (s : System F) (v : Sweep) : Except Fault Sweep :=
  match _h : s.advance v with
  | .error fault => .error fault
  | .ok none => .ok v
  | .ok (some v') => s.sweepFrom v'
termination_by (v.unexpanded s.hints.hints.size, v.pending.length)
decreasing_by exact advance_decreases (by assumption)

/-- The sweep over all that some wires lead to. -/
def sweep (s : System F) (reads : List Wire) : Except Fault Sweep := s.sweepFrom (.start reads)

end System

end RankOne

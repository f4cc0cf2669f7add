import Mathlib.Logic.Function.Basic
import RankOne.Cursor.Session
import RankOne.Proofs.Machine.Operations

/-!
# Walks over the wires of a constraint

A cursor that has made some steps answers like the list of wires without as many of the first ones
(`Cursor.remaining`). Where it stands is a matter of the number of its steps (`Cursor.place`), and
each of its operations is settled for every such place; `Cursor.Session.move_place` puts them
together for the moves that a session makes. Any number of cursors over one constraint are kept
apart by names (`Cursor.Desk`); a session is a desk with two of them (`Cursor.Desk.replies_session`).
Whatever is asked of them, and in whichever order, the answers are those of lists, and it is enough
to count the steps of each cursor (`Cursor.walks_refine_lists`).
-/

namespace RankOne

/-- The `i`-th step of a walk looks a term up in one of the three sides, at a place that this side
has. -/
inductive Constraint.LooksUp (c : Constraint) (i : Nat) : Term → Prop
  | left (h : i < c.left.terms.length) : LooksUp c i c.left.terms[i]
  | right (hleft : c.left.terms.length ≤ i)
      (h : i - c.left.terms.length < c.right.terms.length) :
      LooksUp c i c.right.terms[i - c.left.terms.length]
  | output (hright : c.left.terms.length + c.right.terms.length ≤ i)
      (h : i - (c.left.terms.length + c.right.terms.length) < c.output.terms.length) :
      LooksUp c i c.output.terms[i - (c.left.terms.length + c.right.terms.length)]

/-- Every step within the three sides finds its term. -/
theorem Constraint.exists_looksUp {c : Constraint} {i : Nat} (h : i < c.wires.length) :
    ∃ t, c.LooksUp i t ∧ c.wireAt? i = some t.wire := by
  have hlength : c.wires.length = c.left.length + c.right.length + c.output.length :=
    (Cursor.finish_eq_length_wires (.start c)).symm
  unfold wireAt?
  by_cases hleft : i < c.left.length
  · refine ⟨_, .left hleft, ?_⟩
    rw [if_pos hleft, List.getElem?_eq_getElem hleft, Option.map_some]
  · by_cases hright : i < c.left.length + c.right.length
    · have hplace : i - c.left.length < c.right.terms.length := by
        show i - c.left.length < c.right.length
        omega
      refine ⟨_, .right (Nat.le_of_not_lt hleft) hplace, ?_⟩
      rw [if_neg hleft, if_pos hright, List.getElem?_eq_getElem hplace, Option.map_some]
      rfl
    · have hplace : i - (c.left.length + c.right.length) < c.output.terms.length := by
        show i - (c.left.length + c.right.length) < c.output.length
        omega
      refine ⟨_, .output (Nat.le_of_not_lt hright) hplace, ?_⟩
      rw [if_neg hleft, if_neg hright, List.getElem?_eq_getElem hplace, Option.map_some]
      rfl

namespace Cursor

/-- The cursor after a number of steps. -/
def advance (c : Cursor) : Nat → Cursor
  | 0 => c
  | n + 1 => (c.advance n).next.2

/-- What is left of some wires after a number of steps. There may be more steps than wires. -/
def remaining (ws : List Wire) (n : Nat) : List Wire := ws.drop (min n ws.length)

/-- Where a cursor stands after a number of steps. -/
def place (c : Constraint) (n : Nat) : Cursor := ⟨c, min n c.wires.length⟩

section Remaining

variable {ws : List Wire} {n : Nat}

theorem remaining_of_lt (h : n < ws.length) : remaining ws n = ws[n] :: remaining ws (n + 1) := by
  rw [remaining, Nat.min_eq_left (Nat.le_of_lt h), List.drop_eq_getElem_cons h, remaining,
    Nat.min_eq_left h]

theorem remaining_of_le (h : ws.length ≤ n) : remaining ws n = [] := by
  rw [remaining, Nat.min_eq_right h, List.drop_length]

theorem length_remaining (ws : List Wire) (n : Nat) : (remaining ws n).length = ws.length - n := by
  rw [remaining, List.length_drop]
  omega

end Remaining

/-! ## One cursor -/

variable {c : Constraint} {n : Nat}

theorem place_of_le (h : c.wires.length ≤ n) : place c n = ⟨c, c.wires.length⟩ := by
  rw [place, Nat.min_eq_right h]

theorem next_place_of_lt (h : n < c.wires.length) :
    (place c n).next = (some c.wires[n], place c (n + 1)) := by
  have hwire : c.wireAt? n = some c.wires[n] := by
    rw [Constraint.wireAt?_eq_getElem?, List.getElem?_eq_getElem h]
  rw [place, Nat.min_eq_left (Nat.le_of_lt h), next, hwire, place, Nat.min_eq_left h]

/-- A cursor at the end stays there. -/
theorem next_place_of_le (h : c.wires.length ≤ n) : (place c n).next = (none, place c n) := by
  have hwire : c.wireAt? c.wires.length = none := by
    rw [Constraint.wireAt?_eq_getElem?, List.getElem?_eq_none (Nat.le_refl _)]
  rw [place_of_le h, next, hwire]

theorem next_place (c : Constraint) (n : Nat) :
    (place c n).next = ((remaining c.wires n).head?, place c (n + 1)) := by
  by_cases h : n < c.wires.length
  · rw [next_place_of_lt h, remaining_of_lt h]
    rfl
  · have hle : c.wires.length ≤ n := Nat.le_of_not_lt h
    rw [next_place_of_le hle, remaining_of_le hle, place_of_le hle, place_of_le (by omega)]
    rfl

theorem start_eq_place (c : Constraint) : start c = place c 0 := by
  rw [start, place, Nat.zero_min]

theorem advance_start (c : Constraint) (n : Nat) : (start c).advance n = place c n := by
  induction n with
  | zero => exact start_eq_place c
  | succ n ih => rw [advance, ih, next_place]

theorem advance_place_of_le (h : c.wires.length ≤ n) (steps : Nat) :
    (place c n).advance steps = place c n := by
  induction steps with
  | zero => rfl
  | succ steps ih => rw [advance, ih, next_place_of_le h]

theorem length_place (c : Constraint) (n : Nat) :
    (place c n).length = (remaining c.wires n).length := by
  rw [length, finish_eq_length_wires, length_remaining]
  show c.wires.length - min (min n c.wires.length) c.wires.length = c.wires.length - n
  omega

theorem rest_place (c : Constraint) (n : Nat) : (place c n).rest = remaining c.wires n :=
  drain_fst _

/-- Collecting what is left ends at the end. -/
theorem drain_snd (c : Cursor) (h : c.position ≤ c.constraint.wires.length) :
    c.drain.2 = ⟨c.constraint, c.constraint.wires.length⟩ := by
  fun_induction drain c with
  | case1 c d hnext =>
      unfold next at hnext
      rw [Constraint.wireAt?_eq_getElem?] at hnext
      split at hnext
      · cases hnext
      · rename_i hnone
        cases hnext
        have hend : c.position = c.constraint.wires.length :=
          Nat.le_antisymm h (List.getElem?_eq_none_iff.mp hnone)
        rw [← hend]
  | case2 c w d hnext ih =>
      unfold next at hnext
      rw [Constraint.wireAt?_eq_getElem?] at hnext
      split at hnext
      · rename_i hsome
        cases hnext
        exact ih (List.getElem?_eq_some_iff.mp hsome).1
      · cases hnext

/-- Collecting what is left takes a step for each wire, and one that finds nothing. -/
theorem drain_place (c : Constraint) (n : Nat) :
    (place c n).drain =
      (remaining c.wires n, place c (n + (remaining c.wires n).length + 1)) := by
  have hend : place c (n + (remaining c.wires n).length + 1) = ⟨c, c.wires.length⟩ := by
    rw [length_remaining, place_of_le (by omega)]
  rw [hend]
  exact Prod.ext (drain_fst _) (drain_snd _ (Nat.min_le_right _ _))

/-- To leave out some wires and yield the next one takes a step for each of them. -/
theorem nth_place (skipped : Nat) (c : Constraint) (n : Nat) :
    (place c n).nth skipped = ((remaining c.wires n)[skipped]?, place c (n + skipped + 1)) := by
  induction skipped generalizing n with
  | zero => rw [nth, next_place, List.head?_eq_getElem?, Nat.add_zero]
  | succ skipped ih =>
      by_cases h : n < c.wires.length
      · rw [nth, next_place_of_lt h]
        show (place c (n + 1)).nth skipped = _
        rw [ih, remaining_of_lt h, List.getElem?_cons_succ, Nat.add_right_comm n 1 skipped]
        rfl
      · -- the first step already finds nothing, and the others are not made
        have hle : c.wires.length ≤ n := Nat.le_of_not_lt h
        rw [nth, next_place_of_le hle, remaining_of_le hle, place_of_le hle,
          place_of_le (by omega)]
        rfl

/-! ## Two cursors -/

namespace Move

/-- What a list of wires that are left answers to a move. -/
def answer (left : List Wire) : Move → Reply
  | .next => .wire left.head?
  | .length | .count => .number left.length
  | .bounds => .between left.length left.length
  | .last => .wire left.getLast?
  | .rest | .drain => .wires left
  | .nth skipped => .wire left[skipped]?
  | .max => .wire left.max?
  | .fork | .swap | .restart => .done

/-- How many steps the current and the other cursor have made after a move, when they had made so
many before. -/
def steps (ws : List Wire) (current other : Nat) : Move → Nat × Nat
  | .next => (current + 1, other)
  | .nth skipped => (current + skipped + 1, other)
  | .drain => (current + (remaining ws current).length + 1, other)
  | .fork => (current, current)
  | .swap => (other, current)
  | .restart => (0, other)
  | .length | .bounds | .last | .count | .rest | .max => (current, other)

end Move

/-- A session whose cursors have made some steps answers like a list, and goes on by counting. -/
theorem Session.move_place (c : Constraint) (current other : Nat) (m : Move) :
    (Session.mk c (place c current) (place c other)).move m =
      (m.answer (remaining c.wires current),
        ⟨c, place c (m.steps c.wires current other).1,
          place c (m.steps c.wires current other).2⟩) := by
  cases m with
  | next => simp only [move, next_place, Move.answer, Move.steps]
  | length => simp only [move, length_place, Move.answer, Move.steps]
  | bounds => simp only [move, length_place, Move.answer, Move.steps]
  | last => simp only [move, last?, rest_place, Move.answer, Move.steps]
  | count => simp only [move, count, rest_place, Move.answer, Move.steps]
  | rest => simp only [move, rest_place, Move.answer, Move.steps]
  | drain => simp only [move, drain_place, Move.answer, Move.steps]
  | nth skipped => simp only [move, nth_place, Move.answer, Move.steps]
  | max => simp only [move, max?, rest_place, Move.answer, Move.steps]
  | fork | swap => rfl
  | restart => simp only [move, start_eq_place, Move.answer, Move.steps]

/-! ## Any number of cursors -/

section Desk

variable {ι : Type}

/-- Cursors over one constraint, each under a name. -/
structure Desk (ι : Type) where
  constraint : Constraint
  cursor : ι → Cursor

/-- A move of the cursor with one name. The cursor with the other name is there to become a copy of
it or to change places with it. -/
structure Command (ι : Type) where
  current : ι
  other : ι
  move : Move

/-- A desk with all its cursors at the first wire. -/
def Desk.start (c : Constraint) : Desk ι := ⟨c, fun _ => Cursor.start c⟩

variable [DecidableEq ι]

namespace Desk

/-- One command: the two cursors that it names make a session for its move. -/
def carryOut (d : Desk ι) (k : Command ι) : Reply × Desk ι :=
  let done := (Session.mk d.constraint (d.cursor k.current) (d.cursor k.other)).move k.move
  (done.1, { d with
    cursor := Function.update (Function.update d.cursor k.other done.2.other) k.current
      done.2.current })

/-- The desk after a list of commands. -/
def run : Desk ι → List (Command ι) → Desk ι
  | d, [] => d
  | d, k :: rest => run (d.carryOut k).2 rest

/-- The answers to a list of commands. -/
def replies : Desk ι → List (Command ι) → List Reply
  | _, [] => []
  | d, k :: rest => (d.carryOut k).1 :: replies (d.carryOut k).2 rest

end Desk

namespace Command

/-- How many steps each cursor has made after a command, when it had made so many before. -/
def count (ws : List Wire) (steps : ι → Nat) (k : Command ι) : ι → Nat :=
  let after := k.move.steps ws (steps k.current) (steps k.other)
  Function.update (Function.update steps k.other after.2) k.current after.1

/-- How many steps each cursor has made after a list of commands. -/
def countAll (ws : List Wire) : (ι → Nat) → List (Command ι) → ι → Nat
  | steps, [] => steps
  | steps, k :: rest => countAll ws (k.count ws steps) rest

/-- What lists answer to a list of commands, when steps are all that is kept of the cursors. -/
def answers (ws : List Wire) : (ι → Nat) → List (Command ι) → List Reply
  | _, [] => []
  | steps, k :: rest =>
    k.move.answer (remaining ws (steps k.current)) :: answers ws (k.count ws steps) rest

end Command

namespace Desk

theorem carryOut_place (c : Constraint) (steps : ι → Nat) (k : Command ι) :
    (Desk.mk c fun i => place c (steps i)).carryOut k =
      (k.move.answer (remaining c.wires (steps k.current)),
        ⟨c, fun i => place c (k.count c.wires steps i)⟩) := by
  simp only [carryOut, Session.move_place, Command.count, Prod.mk.injEq, mk.injEq, true_and]
  funext i
  simp only [Function.update_apply]
  split
  · rfl
  · split <;> rfl

/-- Whatever has been asked of cursors, they go on by counting and answer like lists. -/
theorem run_place (c : Constraint) (steps : ι → Nat) (commands : List (Command ι)) :
    (Desk.mk c fun i => place c (steps i)).run commands =
        ⟨c, fun i => place c (Command.countAll c.wires steps commands i)⟩ ∧
      (Desk.mk c fun i => place c (steps i)).replies commands =
        Command.answers c.wires steps commands := by
  induction commands generalizing steps with
  | nil => exact ⟨rfl, rfl⟩
  | cons k rest ih =>
      obtain ⟨hrun, hreplies⟩ := ih (k.count c.wires steps)
      simp only [run, replies, carryOut_place, Command.countAll, Command.answers]
      exact ⟨hrun, by rw [hreplies]⟩

/-- A session is a desk with two cursors, the current one and the other one. -/
theorem replies_session (s : Session) (moves : List Move) :
    s.replies moves =
      (Desk.mk s.constraint fun isOther : Bool => if isOther then s.other else s.current).replies
        (moves.map (Command.mk false true)) := by
  induction moves generalizing s with
  | nil => rfl
  | cons m rest ih =>
      have hconstraint : (s.move m).2.constraint = s.constraint := by cases m <;> rfl
      have hdesk : ((Desk.mk s.constraint fun isOther : Bool =>
            if isOther then s.other else s.current).carryOut ⟨false, true, m⟩).2 =
          Desk.mk (s.move m).2.constraint fun isOther =>
            if isOther then (s.move m).2.other else (s.move m).2.current := by
        rw [hconstraint]
        refine congrArg (Desk.mk s.constraint) (funext fun isOther => ?_)
        cases isOther <;> rfl
      rw [Session.replies, ih, List.map_cons, replies, hdesk]
      rfl

/-- A command leaves alone the cursors that it does not name, and the other one as well unless it
becomes a copy or changes places. -/
theorem cursor_carryOut_of_ne (d : Desk ι) (k : Command ι) {i : ι} (hcurrent : i ≠ k.current)
    (hother : k.move = .fork ∨ k.move = .swap → i ≠ k.other) :
    (d.carryOut k).2.cursor i = d.cursor i := by
  show Function.update _ _ _ i = _
  rw [Function.update_of_ne hcurrent]
  by_cases hi : i = k.other
  · subst hi
    rw [Function.update_self]
    cases hmove : k.move with
    | fork => exact absurd rfl (hother (.inl hmove))
    | swap => exact absurd rfl (hother (.inr hmove))
    | _ => rfl
  · rw [Function.update_of_ne hi]

end Desk

/-- Any cursors over a constraint, whatever is asked of them, answer like the list of its wires. A
cursor is known by how many steps it has made: it stands that far in the list, or at its end, and
yields and counts what the list has left. Once nothing is left it yields nothing and stays where it
is. Every step before that finds its term in one of the three sides, so a machine whose words count
the wires never reads at a place that does not exist. No cursor moves when another one is told
to. -/
theorem walks_refine_lists (c : Constraint) (commands : List (Command ι)) :
    let desk := (Desk.start c : Desk ι).run commands
    let steps := Command.countAll c.wires (fun _ => 0) commands
    (Desk.start c).replies commands = Command.answers c.wires (fun _ => 0) commands ∧
    (∀ i, desk.cursor i = (start c).advance (steps i)) ∧
    (∀ n, let cursor := (start c).advance n
      cursor.position = min n c.wires.length ∧ cursor.rest = remaining c.wires n ∧
        cursor.next.1 = (remaining c.wires n).head? ∧
        cursor.length = (remaining c.wires n).length) ∧
    (∀ n, remaining c.wires n = [] → let cursor := (start c).advance n
      ∀ more, cursor.advance more = cursor ∧ (cursor.advance more).next = (none, cursor)) ∧
    (∀ n, n < c.wires.length → ∃ t, c.LooksUp n t ∧
      ((start c).advance n).next = (some t.wire, (start c).advance (n + 1))) ∧
    (c.wires.length < wordCount → ∀ n,
      Machine.next ((start c).advance n) = .ok ((start c).advance n).next) ∧
    ∀ (k : Command ι) i, i ≠ k.current → (k.move = .fork ∨ k.move = .swap → i ≠ k.other) →
      (desk.carryOut k).2.cursor i = desk.cursor i := by
  intro desk steps
  have hstart : (Desk.start c : Desk ι) = ⟨c, fun _ => place c 0⟩ := by
    rw [Desk.start, start_eq_place]
  obtain ⟨hrun, hreplies⟩ := Desk.run_place c (fun _ : ι => 0) commands
  rw [← hstart] at hrun hreplies
  refine ⟨hreplies, ?_, ?_, ?_, ?_, ?_, fun k i => desk.cursor_carryOut_of_ne k⟩
  · intro i
    rw [advance_start]
    exact congrFun (congrArg Desk.cursor hrun) i
  · intro n cursor
    have hcursor : cursor = place c n := advance_start c n
    rw [hcursor, next_place]
    exact ⟨rfl, rest_place c n, rfl, length_place c n⟩
  · intro n hempty cursor more
    have hcursor : cursor = place c n := advance_start c n
    have hle : c.wires.length ≤ n := by
      have hlength := length_remaining c.wires n
      rw [hempty, List.length_nil] at hlength
      omega
    rw [hcursor, advance_place_of_le hle, next_place_of_le hle]
    exact ⟨rfl, rfl⟩
  · intro n hn
    obtain ⟨t, ht, hwire⟩ := Constraint.exists_looksUp hn
    rw [Constraint.wireAt?_eq_getElem?, List.getElem?_eq_getElem hn] at hwire
    rw [advance_start, advance_start, next_place_of_lt hn, Option.some.inj hwire]
    exact ⟨t, ht, rfl⟩
  · intro hfits n
    rw [advance_start]
    exact Machine.next_eq_ok hfits

end Desk

/-- A constraint with an empty right side, a zero term and a wire that occurs twice. -/
def gappedConstraint : Constraint :=
  ⟨⟨[⟨.one, ⟨5⟩⟩, ⟨.zero, ⟨2⟩⟩]⟩, {}, ⟨[⟨.two, ⟨5⟩⟩]⟩⟩

/-- Three cursors: the second becomes a copy of the first, which walks on to the end, and changes
places with the third. -/
def gappedCommands : List (Command (Fin 3)) :=
  [⟨0, 0, .next⟩, ⟨0, 1, .fork⟩, ⟨0, 0, .nth 2⟩, ⟨0, 0, .next⟩, ⟨1, 2, .swap⟩, ⟨1, 1, .max⟩,
    ⟨2, 2, .rest⟩, ⟨0, 0, .restart⟩, ⟨0, 0, .bounds⟩]

theorem walks_refine_lists_gapped :
    (Desk.start gappedConstraint).replies gappedCommands =
        [.wire (some ⟨5⟩), .done, .wire none, .wire none, .done, .wire (some ⟨5⟩),
          .wires [⟨2⟩, ⟨5⟩], .done, .between 3 3] ∧
      ((start gappedConstraint).advance 4).next = (none, (start gappedConstraint).advance 4) ∧
      (∃ t, gappedConstraint.LooksUp 2 t ∧ ((start gappedConstraint).advance 2).next =
        (some t.wire, (start gappedConstraint).advance 3)) ∧
      Machine.next ((start gappedConstraint).advance 3) =
        .ok (none, (start gappedConstraint).advance 3) ∧
      (((Desk.start gappedConstraint).run gappedCommands).carryOut ⟨0, 1, .drain⟩).2.cursor 1 =
        ((Desk.start gappedConstraint).run gappedCommands).cursor 1 := by
  obtain ⟨hreplies, -, -, hend, hlookup, hmachine, hapart⟩ :=
    walks_refine_lists gappedConstraint gappedCommands
  refine ⟨hreplies.trans (by rfl), (hend 4 (by rfl) 0).2, hlookup 2 (by decide), ?_, ?_⟩
  · exact (hmachine (by decide) 3).trans (congrArg _ (hend 3 (by rfl) 0).2)
  · exact hapart ⟨0, 1, .drain⟩ 1 (by decide) (by simp)

end Cursor

end RankOne

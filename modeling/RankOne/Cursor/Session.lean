import RankOne.Cursor

/-!
# Working with two cursors

A session keeps two cursors over one constraint: the current one, which moves and is asked, and
another one, which may take a copy of it or change places with it.
-/

namespace RankOne.Cursor

/-- Two cursors over one constraint. -/
structure Session where
  constraint : Constraint
  current : Cursor
  other : Cursor

/-- What a session can be told or asked. -/
inductive Move where
  /-- The next wire. -/
  | next
  /-- How many wires are left. -/
  | length
  /-- The least and the greatest number of wires that may be left. -/
  | bounds
  /-- The last wire that is left, without moving. -/
  | last
  /-- How many wires a walk to the end meets, without moving. -/
  | count
  /-- The wires that are left, without moving. -/
  | rest
  /-- The wires that are left, moving to the end. -/
  | drain
  /-- Leaves out some wires and yields the next one. -/
  | nth (skipped : Nat)
  /-- The greatest wire that is left, without moving. -/
  | max
  /-- The other cursor becomes a copy of the current one. -/
  | fork
  /-- The cursors change places. -/
  | swap
  /-- The current cursor becomes a new one. -/
  | restart

/-- What a session answers. -/
inductive Reply where
  | wire (w : Option Wire)
  | number (n : Nat)
  | between (least greatest : Nat)
  | wires (ws : List Wire)
  | done

namespace Session

/-- A session with both cursors at the first wire. -/
def start (c : Constraint) : Session := ⟨c, Cursor.start c, Cursor.start c⟩

/-- One move: its answer, and the session after it. -/
def move (s : Session) : Move → Reply × Session
  | .next => (.wire s.current.next.1, { s with current := s.current.next.2 })
  | .length => (.number s.current.length, s)
  | .bounds => (.between s.current.length s.current.length, s)
  | .last => (.wire s.current.last?, s)
  | .count => (.number s.current.count, s)
  | .rest => (.wires s.current.rest, s)
  | .drain => (.wires s.current.drain.1, { s with current := s.current.drain.2 })
  | .nth skipped =>
    (.wire (s.current.nth skipped).1, { s with current := (s.current.nth skipped).2 })
  | .max => (.wire s.current.max?, s)
  | .fork => (.done, { s with other := s.current })
  | .swap => (.done, { s with current := s.other, other := s.current })
  | .restart => (.done, { s with current := Cursor.start s.constraint })

/-- The answers to a list of moves. -/
def replies : Session → List Move → List Reply
  | _, [] => []
  | s, m :: rest => (s.move m).1 :: replies (s.move m).2 rest

end Session

end RankOne.Cursor

import RankOne.System.Sweep

/-!
# Leveling constraints

Constraints get their levels in the order in which they were stored. A constraint stands one level
above the highest producer of what it reads, and produces what no earlier constraint does.
-/

namespace RankOne.System

variable {F : Type}

/-- Gives the next constraint its level, for the wires that it is said to read: what is decided, and
the system after it. -/
def level (s : System F) (cid : Nat) (reads : List Wire) : Except Fault Leveled × System F :=
  if cid ≠ s.schedule.leveledCount then
    (.error (.levelOutOfOrder s.schedule.leveledCount cid), s)
  else if s.entries.size ≤ cid then
    (.error (.unknownConstraint cid s.entries.size), s)
  else
    match s.sweep reads with
    | .error fault => (.error fault, s)
    | .ok v =>
      let decided : Leveled := ⟨cid, v.level, reads, v.outputs, v.expanded⟩
      (.ok decided, { s with schedule := s.schedule.record decided })

/-- Stores a constraint and gives it a level for its own wires. Nothing is stored if one of them is
undeclared. If earlier constraints are still without a level, then this one is stored and has to
wait for them. -/
def appendLeveled (s : System F) (c : Constraint) (source : Option Provenance) :
    Except Fault Leveled × System F :=
  match c.wires.forM s.layout.check with
  | .error fault => (.error fault, s)
  | .ok () =>
    let (cid, stored) := s.append c source
    stored.level cid c.wires

end RankOne.System

import RankOne.WireMap

/-!
# Schedules

A schedule groups constraints into levels for a solver of witnesses. Constraints of one level do not
depend on each other, so a level may be solved in parallel, and the levels one after another. Each
constraint also produces wires, and a wire's *producing level* is that of its producer.

Main statement: `wireLevel?_record` (a leveling moves the wires that the constraint produces, and no
others).
-/

namespace RankOne

/-- What leveling one constraint has decided. -/
structure Leveled where
  cid : Nat
  level : Nat
  /-- The wires that the constraint was said to read. -/
  reads : List Wire
  /-- The wires that it produces, each once. -/
  outputs : List Wire
  /-- The places of the hints that it has to run, the last one first. -/
  hints : List Nat
deriving DecidableEq

/-- Levels of constraints and producing levels of wires. -/
structure Schedule where
  /-- The constraint ids of each level. -/
  levels : Array (Array Nat) := #[]
  /-- The level of each constraint. -/
  constraintLevels : Array Nat := #[]
  /-- The producing level of each wire that is produced. -/
  wireLevels : WireMap := {}

namespace Schedule

/-- How many levels there are. -/
def levelCount (s : Schedule) : Nat := s.levels.size

/-- How many constraints have a level. -/
def leveledCount (s : Schedule) : Nat := s.constraintLevels.size

/-- The level of a constraint. -/
def level? (s : Schedule) (cid : Nat) : Option Nat := s.constraintLevels[cid]?

/-- The producing level of a wire. -/
def wireLevel? (s : Schedule) (w : Wire) : Option Nat := s.wireLevels.get? w

/-- Enters a constraint id into a level, which becomes a new last one if it is not there. -/
def enter (levels : Array (Array Nat)) (level cid : Nat) : Array (Array Nat) :=
  if level < levels.size then levels.modify level (·.push cid) else levels.push #[cid]

/-- Records what leveling the next constraint has decided. -/
def record (s : Schedule) (d : Leveled) : Schedule where
  levels := enter s.levels d.level d.cid
  constraintLevels := s.constraintLevels.push d.level
  wireLevels := s.wireLevels.assign d.outputs d.level

/-- A leveling moves the wires that the constraint produces, and no others. -/
theorem wireLevel?_record (s : Schedule) (d : Leveled) (w : Wire) :
    (s.record d).wireLevel? w = if w ∈ d.outputs then some d.level else s.wireLevel? w :=
  WireMap.get?_assign _ _ _ _

theorem level?_record (s : Schedule) (d : Leveled) (cid : Nat) :
    (s.record d).level? cid = if cid = s.leveledCount then some d.level else s.level? cid :=
  Array.getElem?_push

@[simp] theorem leveledCount_record (s : Schedule) (d : Leveled) :
    (s.record d).leveledCount = s.leveledCount + 1 :=
  Array.size_push _

end Schedule

end RankOne

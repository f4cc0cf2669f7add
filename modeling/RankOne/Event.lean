import RankOne.Fault
import RankOne.Schedule

/-!
# Events

What a system tells those who watch it: each leveling, and each finding that is mere advice.
-/

namespace RankOne

/-- How much attention an event asks for. -/
inductive Severity where
  | trace
  | warn
deriving DecidableEq

/-- The name of a severity. -/
def Severity.name : Severity → String
  | .trace => "TRACE"
  | .warn => "WARN"

/-- A message with named values. -/
structure Event where
  severity : Severity
  message : String
  values : List (String × String)
deriving DecidableEq

namespace Event

/-- A constraint has been leveled. -/
def leveled (d : Leveled) : Event :=
  ⟨.trace, "leveled constraint",
    [("cid", toString d.cid), ("level", toString d.level),
     ("outputs", toString d.outputs.length)]⟩

/-- A check has an advisory finding. -/
def advice (finding : Fault) : Event :=
  ⟨.warn, "constraint system check", [("error", finding.message)]⟩

end Event

end RankOne

/-!
# Settings of a constraint system
-/

namespace RankOne

/-- What happens when a hint's output occurs in no constraint. -/
inductive HintPolicy where
  /-- The finding is advisory. -/
  | warn
  /-- The finding is a fault. -/
  | deny
deriving DecidableEq, Inhabited

/-- The settings a constraint system is created with. -/
structure Config where
  hintPolicy : HintPolicy := .warn
deriving DecidableEq, Inhabited

/-- The settings under which every finding is a fault. -/
def Config.strict : Config := { hintPolicy := .deny }

end RankOne

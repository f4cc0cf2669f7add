/-!
# Where constraints come from

A front-end may say where a constraint comes from: a message and the frames that led to it.
-/

namespace RankOne

/-- What a front-end says about the place a constraint comes from. -/
structure Provenance where
  message : String
  stack : List String := []
deriving DecidableEq

/-- The message, then each frame on an indented line of its own, in the order given. -/
def Provenance.render (p : Provenance) : String :=
  p.message ++ String.join (p.stack.map fun frame => "\n\t" ++ frame)

end RankOne

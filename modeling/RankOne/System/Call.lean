import RankOne.System.Leveling

/-!
# Runs of calls

A front-end builds a system call by call, in any order, and calls may be turned down. A run is a
list of calls on an empty system; the systems that runs lead to are the reachable ones.
-/

namespace RankOne

/-- A call that may change a system over `F`. -/
inductive Call (F : Type) where
  | declarePublic (name : String)
  | declareSecret (name : String)
  | declareInternal
  | intern (value : F)
  /-- The term of a coefficient and a wire, which is not looked at. -/
  | term (value : F) (wire : Wire)
  | register (hint : Hint)
  | append (c : Constraint) (source : Option Provenance)
  | appendLeveled (c : Constraint) (source : Option Provenance)
  | level (cid : Nat) (reads : List Wire)

/-- What a call that is not turned down answers. -/
inductive Answer where
  | wire (w : Wire)
  | coeff (id : CoeffId)
  | term (t : Term)
  | hint (index : Nat)
  | constraint (cid : Nat)
  | leveled (decided : Leveled)

/-- What was decided on a constraint, if the answer tells of it. -/
def leveling? : Except Fault Answer → Option Leveled
  | .ok (.leveled decided) => some decided
  | _ => none

/-- Answers a call with what an operation has come to, and hands on what the operation has left. -/
def reply {α S : Type} (answer : α → Answer) (outcome : Except Fault α × S) :
    Except Fault Answer × S :=
  (outcome.1.map answer, outcome.2)

theorem reply_fst_eq_error_iff {α S : Type} {answer : α → Answer} {outcome : Except Fault α × S}
    {fault : Fault} : (reply answer outcome).1 = .error fault ↔ outcome.1 = .error fault := by
  rcases outcome with ⟨_ | _, _⟩ <;> simp [reply, Except.map]

namespace System

variable {F : Type} [Zero F] [One F] [Add F] [Neg F] [DecidableEq F]

/-- Makes one call: its answer, and the system after it. -/
def call (s : System F) : Call F → Except Fault Answer × System F
  | .declarePublic name => reply .wire (s.declarePublic name)
  | .declareSecret name => reply .wire (s.declareSecret name)
  | .declareInternal => (.ok (.wire s.declareInternal.1), s.declareInternal.2)
  | .intern value => (.ok (.coeff (s.intern value).1), (s.intern value).2)
  | .term value wire => (.ok (.term ⟨(s.intern value).1, wire⟩), (s.intern value).2)
  | .register hint => reply .hint (s.register hint)
  | .append c source => (.ok (.constraint (s.append c source).1), (s.append c source).2)
  | .appendLeveled c source => reply .leveled (s.appendLeveled c source)
  | .level cid reads => reply .leveled (s.level cid reads)

/-- The system after a list of calls. -/
def run (s : System F) : List (Call F) → System F
  | [] => s
  | c :: rest => (s.call c).2.run rest

/-- The answers to a list of calls. -/
def answers (s : System F) : List (Call F) → List (Except Fault Answer)
  | [] => []
  | c :: rest => (s.call c).1 :: (s.call c).2.answers rest

/-- The levelings of a list of calls, in the order in which they came about. -/
def levelings (s : System F) (calls : List (Call F)) : List Leveled :=
  (s.answers calls).filterMap leveling?

/-- The systems that calls on an empty system lead to. -/
def Reachable (s : System F) : Prop := ∃ config calls, s = (empty config).run calls

theorem run_append (s : System F) (xs ys : List (Call F)) :
    s.run (xs ++ ys) = (s.run xs).run ys := by
  induction xs generalizing s with
  | nil => rfl
  | cons c rest ih => exact ih (s.call c).2

/-- A system that has just been created is reachable. -/
theorem reachable_empty (config : Config) : (empty config : System F).Reachable :=
  ⟨config, [], rfl⟩

/-- Calls on a reachable system lead to reachable systems. -/
theorem Reachable.run {s : System F} (h : s.Reachable) (calls : List (Call F)) :
    (s.run calls).Reachable := by
  obtain ⟨config, before, rfl⟩ := h
  exact ⟨config, before ++ calls, (run_append _ _ _).symm⟩

end System

end RankOne

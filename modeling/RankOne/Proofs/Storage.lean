import RankOne.Proofs.Growth

/-!
# The stored constraints of a run

The entries of a system are what its calls have handed over to be stored, in the order of the calls
and each with the source that was given along (`System.entries_run`).
-/

namespace RankOne

namespace System

variable {F : Type}

/-- The entry that a call stores. A constraint that is to be leveled at once is not stored if one of
its wires is undeclared. -/
def storedBy? (s : System F) : Call F → Option Entry
  | .append c source => some ⟨c, source⟩
  | .appendLeveled c source =>
    if ∀ w ∈ c.wires, w.index < s.layout.wireCount then some ⟨c, source⟩ else none
  | _ => none

/-- Leveling stores nothing. -/
theorem entries_level (s : System F) (cid : Nat) (reads : List Wire) :
    (s.level cid reads).2.entries = s.entries := by
  rcases s.level_cases cid reads with ⟨fault, h⟩ | ⟨-, -, v, -, h⟩ <;> rw [h]

/-- Whether or not it gets a level now, a constraint with declared wires is stored. -/
theorem entries_appendLeveled (s : System F) (c : Constraint) (source : Option Provenance) :
    (s.appendLeveled c source).2.entries.toList =
      s.entries.toList ++ (s.storedBy? (.appendLeveled c source)).toList := by
  by_cases hwires : ∀ w ∈ c.wires, w.index < s.layout.wireCount
  · rw [storedBy?, if_pos hwires, appendLeveled_of_declared source hwires, entries_level]
    exact Array.toList_push
  · obtain ⟨w, hw⟩ := Layout.exists_firstUndeclared hwires
    rw [storedBy?, if_neg hwires, appendLeveled_of_undeclared source hw]
    simp

variable [Zero F] [One F] [Add F] [Neg F] [DecidableEq F]

/-- The entries that calls store, in order. -/
def stored (s : System F) : List (Call F) → List Entry
  | [] => []
  | c :: rest => (s.storedBy? c).toList ++ (s.call c).2.stored rest

theorem entries_call (s : System F) (c : Call F) :
    (s.call c).2.entries.toList = s.entries.toList ++ (s.storedBy? c).toList := by
  have hkept : s.storedBy? c = none → (s.call c).2.entries = s.entries →
      (s.call c).2.entries.toList = s.entries.toList ++ (s.storedBy? c).toList := by
    intro hnone hentries
    rw [hnone, hentries, Option.toList_none, List.append_nil]
  cases c with
  | declarePublic | declareSecret => exact hkept rfl (s.entries_declare _)
  | declareInternal | intern | term | register => exact hkept rfl rfl
  | append => exact Array.toList_push
  | appendLeveled constraint source => exact s.entries_appendLeveled constraint source
  | level cid reads => exact hkept rfl (s.entries_level cid reads)

/-- The entries after some calls are those before, and what the calls have stored. -/
theorem entries_run (s : System F) (calls : List (Call F)) :
    (s.run calls).entries.toList = s.entries.toList ++ s.stored calls := by
  induction calls generalizing s with
  | nil => simp [run, stored]
  | cons c rest ih => rw [run, ih, entries_call, stored, List.append_assoc]

theorem entries_run_empty (config : Config) (calls : List (Call F)) :
    ((empty config : System F).run calls).entries.toList =
      (empty config : System F).stored calls :=
  entries_run _ calls

end System

end RankOne

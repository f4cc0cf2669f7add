import Mathlib.Data.List.Flatten
import Mathlib.Data.List.Perm.Subperm
import RankOne.Proofs.RefusedLevelings

/-!
# How many turns a sweep takes

A wire may come to wait many times, since a sweep marks hints and not wires. But whatever waits was
put on the stack as one of the reads, or as an argument of a hint when the hint was expanded, and no
hint is expanded twice (`Sweep.Balanced`). So there are no more turns than reads and argument terms
of registered hints, on every graph of hints, and after these the sweep has its answer
(`System.sweep_turns_bounded`).
-/

namespace RankOne

namespace HintRegistry

variable {r : HintRegistry}

/-- The argument wires of the hint at a place. -/
def argumentsAt (r : HintRegistry) (i : Nat) : List Wire :=
  (r.hints[i]?.map Hint.inputWires).getD []

/-- The number of terms with a coefficient other than `0` in the arguments of all hints. -/
def argumentCount (r : HintRegistry) : Nat :=
  (r.hints.toList.map fun h => h.inputWires.length).sum

theorem argumentsAt_of_getElem? {i : Nat} {h : Hint} (hget : r.hints[i]? = some h) :
    r.argumentsAt i = h.inputWires := by
  rw [argumentsAt, hget]
  rfl

theorem flatMap_argumentsAt_range (r : HintRegistry) :
    (List.range r.hints.size).flatMap r.argumentsAt = r.hints.toList.flatMap Hint.inputWires := by
  have hmap : (List.range r.hints.size).map r.argumentsAt = r.hints.toList.map Hint.inputWires := by
    refine List.ext_getElem (by simp) ?_
    intro i hi hi'
    have hplace : i < r.hints.size := by simpa using hi
    simp [argumentsAt_of_getElem? (Array.getElem?_eq_getElem hplace)]
  rw [List.flatMap_def, hmap, ← List.flatMap_def]

/-- Hints at different places have no more arguments than all hints together. -/
theorem length_flatMap_argumentsAt_le {places : List Nat} (hnodup : places.Nodup)
    (hregistered : ∀ i ∈ places, i < r.hints.size) :
    (places.flatMap r.argumentsAt).length ≤ r.argumentCount := by
  have hsubset : places ⊆ List.range r.hints.size :=
    fun i hi => List.mem_range.mpr (hregistered i hi)
  obtain ⟨ordered, hperm, hsublist⟩ := hnodup.subperm hsubset
  calc (places.flatMap r.argumentsAt).length = (ordered.flatMap r.argumentsAt).length :=
        (hperm.symm.flatMap_right _).length_eq
    _ ≤ ((List.range r.hints.size).flatMap r.argumentsAt).length :=
        (hsublist.flatMap _).length_le
    _ = (r.hints.toList.flatMap Hint.inputWires).length := by rw [flatMap_argumentsAt_range]
    _ = r.argumentCount := List.length_flatMap

end HintRegistry

namespace System

variable {F : Type}

/-- Turns of a sweep one after another, and the wires that they take off the stack, one each. -/
inductive Turns (s : System F) : Sweep → List Wire → Sweep → Prop
  | none (v : Sweep) : Turns s v [] v
  | turn {v v' v'' w rest ws} : v.pending = w :: rest → s.advance v = .ok (some v') →
      Turns s v' ws v'' → Turns s v (w :: ws) v''

/-- There is no further turn, so the sweep has its answer: nothing waits any more, or the wire that
is taken off next is undeclared. -/
inductive Over (s : System F) (v : Sweep) : Except Fault Sweep → Prop
  | done : v.pending = [] → Over s v (.ok v)
  | stopped {w rest fault} : v.pending = w :: rest → s.layout.check w = .error fault →
      Over s v (.error fault)

end System

namespace Sweep

variable {F : Type} {s : System F} {reads taken : List Wire} {v : Sweep}

/-- What was put on the stack has been taken off or still waits: the reads, and the arguments of
each hint that was expanded, once. -/
structure Balanced (s : System F) (reads taken : List Wire) (v : Sweep) : Prop where
  conserved : (taken ++ v.pending).Perm (reads ++ v.expanded.flatMap s.hints.argumentsAt)
  nodup : v.expanded.Nodup
  registered : ∀ i ∈ v.expanded, i < s.hints.hints.size

theorem balanced_start : (start reads).Balanced s reads [] where
  conserved := by
    show reads.reverse.Perm (reads ++ [])
    rw [List.append_nil]
    exact List.reverse_perm reads
  nodup := List.nodup_nil
  registered := fun _ h => absurd h List.not_mem_nil

/-- A turn moves a wire from the waiting ones to the taken ones. If it expands a hint, then for the
first time, and the arguments of the hint come to wait. -/
theorem Balanced.turn {w : Wire} {rest : List Wire} {r : Role} (hv : v.Balanced s reads taken)
    (hpending : v.pending = w :: rest) (hrole : s.role w = .ok r) :
    (({ v with pending := rest } : Sweep).meet w r).Balanced s reads (taken ++ [w]) := by
  have hmoved : (taken ++ [w] ++ rest).Perm
      (reads ++ v.expanded.flatMap s.hints.argumentsAt) := by
    have hconserved := hv.conserved
    rw [hpending] at hconserved
    rwa [List.append_assoc, List.singleton_append]
  cases r with
  | known => exact ⟨hmoved, hv.nodup, hv.registered⟩
  | produced level => exact ⟨hmoved, hv.nodup, hv.registered⟩
  | free => exact ⟨hmoved, hv.nodup, hv.registered⟩
  | hinted i h =>
      rcases meet_hinted (v := { v with pending := rest }) w i h with ⟨-, heq⟩ | ⟨hnew, heq⟩ <;>
        rw [heq]
      · exact ⟨hmoved, hv.nodup, hv.registered⟩
      · have harguments : s.hints.argumentsAt i = h.inputWires :=
          HintRegistry.argumentsAt_of_getElem? (System.getElem?_hints_of_role hrole)
        refine ⟨?_, List.nodup_cons.mpr ⟨hnew, hv.nodup⟩, ?_⟩
        · -- the arguments come to lie on the stack, and they are those of one more expanded hint
          show (taken ++ [w] ++ (h.inputWires.reverse ++ rest)).Perm
            (reads ++ (i :: v.expanded).flatMap s.hints.argumentsAt)
          rw [List.flatMap_cons, harguments]
          calc (taken ++ [w] ++ (h.inputWires.reverse ++ rest)).Perm
                (h.inputWires.reverse ++ (taken ++ [w] ++ rest)) :=
                List.perm_append_comm_assoc _ _ _
            List.Perm _ (h.inputWires ++ (reads ++ v.expanded.flatMap s.hints.argumentsAt)) :=
                (List.reverse_perm _).append hmoved
            List.Perm _ _ := List.perm_append_comm_assoc _ _ _
        · intro j hj
          rcases List.mem_cons.mp hj with rfl | hold
          · exact System.lt_size_of_role_eq_hinted hrole
          · exact hv.registered j hold

theorem Balanced.length_le (hv : v.Balanced s reads taken) :
    taken.length + v.pending.length ≤ reads.length + s.hints.argumentCount := by
  have hlength := hv.conserved.length_eq
  have harguments := HintRegistry.length_flatMap_argumentsAt_le hv.nodup hv.registered
  rw [List.length_append, List.length_append] at hlength
  omega

end Sweep

namespace System

variable {F : Type} {s : System F} {reads : List Wire}

theorem Turns.balanced {v v' : Sweep} {taken ws : List Wire} (h : s.Turns v ws v')
    (hv : v.Balanced s reads taken) : v'.Balanced s reads (taken ++ ws) := by
  induction h generalizing taken with
  | none v =>
      rw [List.append_nil]
      exact hv
  | turn hpending hadvance _ ih =>
      obtain ⟨w', rest', r, hpending', hrole, rfl⟩ := exists_meet_of_advance hadvance
      rw [hpending] at hpending'
      cases hpending'
      rw [← List.singleton_append, ← List.append_assoc]
      exact ih (hv.turn hpending hrole)

/-- A sweep comes to its answer by turns. -/
theorem exists_turns_sweepFrom (v : Sweep) :
    ∃ taken v', s.Turns v taken v' ∧ s.Over v' (s.sweepFrom v) := by
  fun_induction sweepFrom s v with
  | case1 v fault hadvance =>
      obtain ⟨w, rest, hpending, hcheck⟩ := advance_eq_error hadvance
      exact ⟨[], v, .none v, .stopped hpending hcheck⟩
  | case2 v hadvance =>
      exact ⟨[], v, .none v, .done (pending_eq_nil_of_advance hadvance)⟩
  | case3 v next hadvance ih =>
      obtain ⟨taken, v', hturns, hover⟩ := ih
      obtain ⟨w, rest, r, hpending, -, -⟩ := exists_meet_of_advance hadvance
      exact ⟨w :: taken, v', .turn hpending hadvance hturns, hover⟩

/-- A sweep ends on every graph of hints, also where hints read their own outputs or each other's.
After any turns each hint has been expanded at most once, and the wires that were taken off the
stack and those that still wait are the reads and the arguments of these hints. So the turns that
were made, and one for each wire that still waits, are no more than the reads and the argument terms
of all hints. The turns lead to the answer of the sweep; one that fails takes a waiting wire too. -/
theorem sweep_turns_bounded (s : System F) (reads : List Wire) :
    (∀ taken v, s.Turns (.start reads) taken v →
      v.expanded.Nodup ∧ (∀ i ∈ v.expanded, i < s.hints.hints.size) ∧
        (taken ++ v.pending).Perm (reads ++ v.expanded.flatMap s.hints.argumentsAt) ∧
        taken.length + v.pending.length ≤ reads.length + s.hints.argumentCount) ∧
      ∃ taken v, s.Turns (.start reads) taken v ∧ s.Over v (s.sweep reads) := by
  constructor
  · intro taken v hturns
    have hv : v.Balanced s reads taken := hturns.balanced Sweep.balanced_start
    exact ⟨hv.nodup, hv.registered, hv.conserved, hv.length_le⟩
  · exact exists_turns_sweepFrom (.start reads)

/-- Two hints that read their own and each other's outputs, and a hint that names an output twice
and is turned down. -/
def knottedRun : List (Call (Residue 17)) :=
  [.declarePublic "x", .declareInternal, .declareInternal, .declareInternal,
    registerOver [2, 4, 2] [2, 3], registerOver [1] [4, 4], registerOver [3, 1] [4]]

/-- Wire 3 is read twice, and wire 2 waits three times in all. The sweep takes as many turns as
there may be. -/
theorem sweep_turns_bounded_knotted :
    ∃ taken v, ((empty {}).run knottedRun).Turns (.start [⟨3⟩, ⟨2⟩, ⟨3⟩]) taken v ∧
      ((empty {}).run knottedRun).sweep [⟨3⟩, ⟨2⟩, ⟨3⟩] = .ok v ∧ v.expanded = [1, 0] ∧
      taken.Perm [⟨3⟩, ⟨2⟩, ⟨3⟩, ⟨3⟩, ⟨1⟩, ⟨2⟩, ⟨4⟩, ⟨2⟩] ∧
      taken.length = 3 + ((empty {}).run knottedRun).hints.argumentCount := by
  obtain ⟨hall, taken, v, hturns, hover⟩ :=
    sweep_turns_bounded ((empty {}).run knottedRun) [⟨3⟩, ⟨2⟩, ⟨3⟩]
  obtain ⟨-, -, hperm, -⟩ := hall taken v hturns
  obtain ⟨v', hsweep, hexpanded, harguments⟩ :
      ∃ v', ((empty {}).run knottedRun).sweep [⟨3⟩, ⟨2⟩, ⟨3⟩] = .ok v' ∧ v'.expanded = [1, 0] ∧
        v'.expanded.flatMap ((empty {}).run knottedRun).hints.argumentsAt =
          [⟨3⟩, ⟨1⟩, ⟨2⟩, ⟨4⟩, ⟨2⟩] :=
    ⟨⟨[], 0, [⟨4⟩, ⟨3⟩, ⟨2⟩], [1, 0]⟩, by cbv, rfl, by cbv⟩
  rw [hsweep] at hover ⊢
  cases hover with
  | done hdone =>
      rw [hdone, List.append_nil, harguments] at hperm
      exact ⟨taken, v, hturns, rfl, hexpanded, hperm, hperm.length_eq.trans (by cbv)⟩

end System

end RankOne

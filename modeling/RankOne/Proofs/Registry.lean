import Mathlib.Algebra.GroupWithZero.Nat
import Mathlib.Data.List.Nodup
import RankOne.Proofs.Growth
import RankOne.Scalar.Residue

/-!
# The registry of hints

The hints and the places of their outputs are two views of one thing: a wire is entered under a hint
if it is one of its outputs, and no wire stands at two places of an output list or in two of them.
Registering a hint keeps this up (`HintRegistry.Exact.push`), and so do all other calls. In every
reachable system the registry is exact, and whatever is registered stays where it is
(`System.registry_exact`).
-/

namespace RankOne

namespace HintRegistry

variable {r : HintRegistry} {l l' : Layout} {w : Wire}

/-! ## Output wires -/

theorem mem_outputWires : w ∈ r.outputWires ↔ (r.place? w).isSome = true := by
  rw [Option.isSome_iff_exists]
  exact WireMap.mem_wires

theorem nodup_outputWires (r : HintRegistry) : r.outputWires.Nodup := WireMap.nodup_wires _

theorem Valid.internal_of_mem_outputWires (hr : r.Valid l) (hw : w ∈ r.outputWires) :
    l.isInput w = false := by
  obtain ⟨i, hplace⟩ := Option.isSome_iff_exists.mp (mem_outputWires.mp hw)
  exact (hr.internal w i hplace).2

theorem Valid.mem_outputWires_iff (hr : r.Valid l) :
    w ∈ r.outputWires ↔ w ∈ r.hints.toList.flatMap Hint.outputs := by
  rw [mem_outputWires, Option.isSome_iff_exists, List.mem_flatMap]
  constructor
  · rintro ⟨i, hplace⟩
    obtain ⟨h, hget, hw⟩ := (hr.place?_eq_some_iff w i).mp hplace
    exact ⟨h, Array.mem_toList_iff.mpr (Array.mem_of_getElem? hget), hw⟩
  · rintro ⟨h, hmem, hw⟩
    obtain ⟨i, hget⟩ := Array.mem_iff_getElem?.mp (Array.mem_toList_iff.mp hmem)
    exact ⟨i, (hr.place?_eq_some_iff w i).mpr ⟨h, hget, hw⟩⟩

/-! ## Exact registries -/

/-- The registry enters exactly the outputs of its hints. No hint has an output twice, and hints
read declared wires only. -/
structure Exact (r : HintRegistry) (l : Layout) : Prop extends r.Valid l where
  nodup : ∀ h ∈ r.hints, h.outputs.Nodup
  arguments : ∀ h ∈ r.hints, ∀ w ∈ h.inputWires, w.index < l.wireCount

theorem exact_empty (l : Layout) : ({} : HintRegistry).Exact l where
  toValid := valid_empty l
  nodup h hmem := by simp at hmem
  arguments h hmem := by simp at hmem

theorem Exact.mono (hr : r.Exact l) (hl : l.Extends l') : r.Exact l' where
  toValid := hr.toValid.mono hl
  nodup := hr.nodup
  arguments h hmem w hw := Nat.lt_of_lt_of_le (hr.arguments h hmem w hw) hl.wireCount_le

theorem Exact.push {h : Hint} (hr : r.Exact l) (hcheck : r.check l h = .ok ()) :
    (r.push h).Exact l := by
  obtain ⟨harguments, hnodup, -⟩ := check_eq_ok_iff.mp hcheck
  refine ⟨hr.toValid.push hcheck, ?_, ?_⟩
  · intro g hg
    rcases Array.mem_push.mp hg with hold | rfl
    · exact hr.nodup g hold
    · exact hnodup
  · intro g hg
    rcases Array.mem_push.mp hg with hold | rfl
    · exact hr.arguments g hold
    · exact harguments

theorem Exact.nodup_outputs (hr : r.Exact l) :
    (r.hints.toList.flatMap Hint.outputs).Nodup := by
  refine List.nodup_flatMap.mpr ⟨fun h hmem => hr.nodup h (Array.mem_toList_iff.mp hmem), ?_⟩
  refine List.pairwise_iff_getElem.mpr ?_
  intro i j hi hj hlt w hwi hwj
  -- a wire of two output lists would be entered under both hints
  have hsame := hr.place_unique (Array.getElem?_toList ▸ List.getElem?_eq_getElem hi)
    (Array.getElem?_toList ▸ List.getElem?_eq_getElem hj) hwi hwj
  omega

/-- As many wires are entered as there are places in the output lists. -/
theorem Exact.outputCount_eq_sum (hr : r.Exact l) :
    r.outputCount = (r.hints.toList.map fun h => h.outputs.length).sum := by
  have hperm : r.outputWires.Perm (r.hints.toList.flatMap Hint.outputs) :=
    (List.perm_ext_iff_of_nodup r.nodup_outputWires hr.nodup_outputs).mpr
      fun w => hr.mem_outputWires_iff
  calc r.outputCount = r.outputWires.length := (WireMap.length_wires r.places).symm
    _ = (r.hints.toList.flatMap Hint.outputs).length := hperm.length_eq
    _ = (r.hints.toList.map fun h => h.outputs.length).sum := List.length_flatMap

end HintRegistry

/-! ## Systems -/

namespace System

variable {F : Type} {s t : System F}

theorem Effect.exact {c : Call F} {ds : List Leveled} (h : s.Effect c ds t)
    (hs : s.hints.Exact s.layout) : t.hints.Exact t.layout := by
  cases h with
  | nothing => exact hs
  | declared hl => exact hs.mono hl
  | interned => exact hs
  | stored => exact hs
  | leveled => exact hs
  | registered hc hcheck => exact hs.push hcheck

variable [Zero F] [One F] [Add F] [Neg F] [DecidableEq F]

theorem exact_run (hs : s.hints.Exact s.layout) (calls : List (Call F)) :
    (s.run calls).hints.Exact (s.run calls).layout := by
  induction calls generalizing s with
  | nil => exact hs
  | cons c rest ih => exact ih ((s.effect_of_call c).exact hs)

theorem exact_of_reachable (h : s.Reachable) : s.hints.Exact s.layout := by
  obtain ⟨config, calls, rfl⟩ := h
  exact exact_run (HintRegistry.exact_empty _) calls

/-- The hint that computes a wire is the only one with the wire among its outputs, where it stands
once. Outputs are declared and never become inputs, arguments are declared, the outputs are counted
once each, and a hint keeps the place that it was registered under. -/
theorem registry_exact (hs : s.Reachable) :
    (∀ w i h, s.hints.producer? w = some (i, h) ↔ s.hints.hints[i]? = some h ∧ w ∈ h.outputs) ∧
    (∀ (i k : Nat) g w, s.hints.hints[i]? = some g → g.outputs[k]? = some w →
      ∀ (j m : Nat) h, s.hints.hints[j]? = some h → h.outputs[m]? = some w → j = i ∧ m = k) ∧
    (∀ h ∈ s.hints.hints, ∀ w ∈ h.outputs, ∀ calls,
      w.index < (s.run calls).layout.wireCount ∧ (s.run calls).layout.isInput w = false) ∧
    (∀ h ∈ s.hints.hints, ∀ w ∈ h.inputWires, w.index < s.layout.wireCount) ∧
    s.hints.outputCount = (s.hints.hints.toList.map fun h => h.outputs.length).sum ∧
    ∀ h i t, s.register h = (.ok i, t) → ∀ calls, (t.run calls).hints.hints[i]? = some h := by
  have hexact := exact_of_reachable hs
  refine ⟨fun w i h => hexact.producer?_eq_some_iff_mem, ?_, ?_, hexact.arguments,
    hexact.outputCount_eq_sum, ?_⟩
  · intro i k g w hg hk j m h hh hm
    have hplace := hexact.place_unique hh hg (List.mem_of_getElem? hm) (List.mem_of_getElem? hk)
    subst hplace
    rw [hh] at hg
    cases hg
    obtain ⟨hlt, -⟩ := List.getElem?_eq_some_iff.mp hm
    have hnodup := hexact.nodup g (Array.mem_of_getElem? hh)
    exact ⟨rfl, (List.getElem?_inj hlt hnodup).mp (hm.trans hk.symm)⟩
  · intro h hmem w hw calls
    -- what is registered now is registered after the calls as well
    obtain ⟨i, hget⟩ := Array.mem_iff_getElem?.mp hmem
    have hlater := (extends_run s calls).hints i h hget
    exact (valid_of_reachable (hs.run calls)).internal_of_mem hlater hw
  · intro h i t hok calls
    obtain ⟨-, rfl, rfl⟩ := register_eq_ok_iff.mp hok
    refine (extends_run _ calls).hints _ h ?_
    rw [HintRegistry.getElem?_hints_push, if_pos rfl]

/-- A hint that reads one of its own outputs, a hint that names it again and is turned down, an
input that is declared too late, and a hint with a zero term on a wire that is not declared. -/
def pairedRun : List (Call (Residue 17)) :=
  [.declarePublic "x", .declareInternal, .declareInternal, .declareInternal,
    .register ⟨⟨0⟩, [⟨[⟨.one, ⟨1⟩⟩, ⟨.one, ⟨3⟩⟩]⟩], [⟨2⟩, ⟨3⟩]⟩,
    .register ⟨⟨1⟩, [], [⟨4⟩, ⟨3⟩]⟩, .declareSecret "y",
    .register ⟨⟨1⟩, [⟨[⟨.one, ⟨2⟩⟩, ⟨.zero, ⟨9⟩⟩]⟩], [⟨4⟩]⟩]

theorem registry_exact_paired :
    ((empty {}).run pairedRun).hints.hints.size = 2 ∧
      ((empty {}).run pairedRun).hints.outputCount = 3 ∧
      (∃ h, ((empty {}).run pairedRun).hints.producer? ⟨3⟩ = some (0, h)) ∧
      ∀ calls, (((empty {}).run pairedRun).run calls).layout.isInput ⟨3⟩ = false := by
  obtain ⟨hproducer, -, houtputs, -, hcount, -⟩ :=
    registry_exact ((reachable_empty {}).run pairedRun)
  have hget : ((empty {}).run pairedRun).hints.hints[0]? =
      some ⟨⟨0⟩, [⟨[⟨.one, ⟨1⟩⟩, ⟨.one, ⟨3⟩⟩]⟩], [⟨2⟩, ⟨3⟩]⟩ := by decide
  refine ⟨by decide, hcount.trans (by decide), ⟨_, (hproducer _ _ _).mpr ⟨hget, by decide⟩⟩, ?_⟩
  exact fun calls => (houtputs _ (Array.mem_of_getElem? hget) _ (by decide) calls).2

end System

end RankOne

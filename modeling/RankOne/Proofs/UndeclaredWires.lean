import Mathlib.Data.List.TakeWhile
import RankOne.Proofs.Coverage

/-!
# Undeclared wires in a report

Constraints may be stored that name undeclared wires. A scan fails at the first of these wires if it
gets to it, and it does not if the constraints before it complete the tally (`System.scan_append`).
So a report names the first undeclared wire, unless everything is covered before: then the system
passes (`System.reportCoverage_of_undeclared`). It depends on the order of the constraints which of
the two it is (`System.undeclared_wire_passes`).
-/

namespace RankOne

/-- A tally that accounts for some wires is complete if these are all it waits for. -/
theorem Tally.Accounts.isComplete_iff {l : Layout} {r : HintRegistry} {t : Tally} {ws : List Wire}
    (h : t.Accounts l r ws) :
    t.isComplete = true ↔ (∀ w ∈ l.declaredInputs, w ∈ ws) ∧ ∀ w ∈ r.outputWires, w ∈ ws := by
  simp [Tally.isComplete, h.inputs.left, h.outputs.left, List.countP_eq_zero]

namespace System

variable {F : Type} {s : System F} {t : Tally}

/-! ## Scans in two parts -/

theorem exists_scan_of_declared {cs : List Constraint} (t : Tally)
    (h : ∀ c ∈ cs, s.layout.firstUndeclared? c.nonzeroWires = none) :
    ∃ noted, s.scan cs t = .ok noted := by
  rcases s.scan_eq_ok_or_error cs t with hok | ⟨c, hc, w, hw, hle, -⟩
  · exact hok
  · have hlt := Layout.firstUndeclared?_eq_none_iff.mp (h c hc) w hw
    omega

/-- A scan goes on to further constraints unless its tally is complete. -/
theorem scan_append (xs ys : List Constraint) (ht : t.isComplete = false) :
    s.scan (xs ++ ys) t =
      match s.scan xs t with
      | .error fault => .error fault
      | .ok noted => if noted.isComplete then .ok noted else s.scan ys noted := by
  induction xs generalizing t with
  | nil => simp [scan, ht]
  | cons c xs ih =>
      rw [List.cons_append, scan, scan]
      cases s.noteAll c.nonzeroWires t with
      | error fault => rfl
      | ok noted =>
          cases hcomplete : noted.isComplete with
          | true => simp [hcomplete]
          | false => simpa [hcomplete] using ih hcomplete

/-! ## Covering constraints -/

/-- Every input besides the constant one and every output of a hint occurs in one of the constraints,
in a term with a coefficient other than `0`. -/
def Covers (s : System F) (cs : List Constraint) : Prop :=
  (∀ w ∈ s.layout.declaredInputs, ∃ c ∈ cs, w ∈ c.nonzeroWires) ∧
    ∀ h ∈ s.hints.hints, ∀ w ∈ h.outputs, ∃ c ∈ cs, w ∈ c.nonzeroWires

instance (s : System F) (cs : List Constraint) : Decidable (s.Covers cs) :=
  inferInstanceAs (Decidable (_ ∧ _))

/-- The constraints before the first one that names an undeclared wire. -/
def declaredPrefix (s : System F) : List Constraint :=
  s.constraints.takeWhile fun c => (s.layout.firstUndeclared? c.nonzeroWires).isNone

theorem isComplete_iff_covers (hs : s.hints.Valid s.layout) {cs : List Constraint}
    (ht : t.Accounts s.layout s.hints (cs.flatMap Constraint.nonzeroWires)) :
    t.isComplete = true ↔ s.Covers cs := by
  rw [ht.isComplete_iff, Covers]
  simp only [hs.mem_outputWires_iff, List.mem_flatMap, Array.mem_toList_iff, forall_exists_index,
    and_imp]
  exact and_congr_right fun _ => ⟨fun h g hg w hw => h w g hg hw, fun h w g hg hw => h g hg w hw⟩

theorem firstUndeclared?_of_mem_declaredPrefix {c : Constraint} (h : c ∈ s.declaredPrefix) :
    s.layout.firstUndeclared? c.nonzeroWires = none := by
  have hc := List.mem_takeWhile_imp h
  exact Option.isNone_iff_eq_none.mp hc

/-- The first constraint that names an undeclared wire comes right after the prefix without one. -/
theorem exists_first_undeclared
    (h : ∃ c ∈ s.constraints, ∃ w ∈ c.nonzeroWires, s.layout.wireCount ≤ w.index) :
    ∃ c post w, s.constraints = s.declaredPrefix ++ c :: post ∧
      s.layout.firstUndeclared? c.nonzeroWires = some w ∧
      s.layout.firstUndeclared? s.constrainedWires = some w := by
  have hsplit : s.declaredPrefix ++ s.constraints.dropWhile
      (fun c => (s.layout.firstUndeclared? c.nonzeroWires).isNone) = s.constraints :=
    List.takeWhile_append_dropWhile
  cases hrest : s.constraints.dropWhile
      fun c => (s.layout.firstUndeclared? c.nonzeroWires).isNone with
  | nil =>
      obtain ⟨c, hc, w, hw, hle⟩ := h
      have hnone := Option.isNone_iff_eq_none.mp (List.dropWhile_eq_nil_iff.mp hrest c hc)
      have hlt := Layout.firstUndeclared?_eq_none_iff.mp hnone w hw
      omega
  | cons c post =>
      rw [hrest] at hsplit
      have hhead := List.head?_dropWhile_not
        (fun c : Constraint => (s.layout.firstUndeclared? c.nonzeroWires).isNone) s.constraints
      rw [hrest] at hhead
      obtain ⟨w, hw⟩ := Option.isSome_iff_exists.mp (Option.isNone_eq_false_iff.mp hhead)
      refine ⟨c, post, w, hsplit.symm, hw, ?_⟩
      have hprefix : s.layout.firstUndeclared?
          (s.declaredPrefix.flatMap Constraint.nonzeroWires) = none := by
        rw [Layout.firstUndeclared?_eq_none_iff]
        intro u hu
        obtain ⟨d, hd, hud⟩ := List.mem_flatMap.mp hu
        exact Layout.firstUndeclared?_eq_none_iff.mp (firstUndeclared?_of_mem_declaredPrefix hd) u hud
      rw [constrainedWires, ← hsplit, List.flatMap_append, List.flatMap_cons,
        Layout.firstUndeclared?_append, Layout.firstUndeclared?_append, hprefix, hw]
      rfl

/-- A report is silent once everything has occurred. -/
theorem judge_of_isComplete (h : t.isComplete = true) : s.judge t = ⟨[], .ok ()⟩ := by
  simp only [Tally.isComplete, Bool.and_eq_true, decide_eq_true_eq] at h
  rw [judge, if_neg (by omega), if_neg (by omega)]

variable [Zero F] [One F] [Add F] [Neg F] [DecidableEq F]

/-- If a constraint names an undeclared wire, the report of a system with inputs names the first such
wire, unless the constraints before it cover the system: then nothing is reported. -/
theorem reportCoverage_of_undeclared (hs : s.Reachable)
    (hundeclared : ∃ c ∈ s.constraints, ∃ w ∈ c.nonzeroWires, s.layout.wireCount ≤ w.index) :
    ∃ w, s.layout.firstUndeclared? s.constrainedWires = some w ∧
      s.reportCoverage =
        if s.layout.declaredInputs = [] then ⟨[], .error .noInputs⟩
        else if s.Covers s.declaredPrefix then ⟨[], .ok ()⟩
        else ⟨[], .error (.undeclaredWire w s.layout.wireCount)⟩ := by
  obtain ⟨c, post, w, hsplit, hc, hw⟩ := exists_first_undeclared hundeclared
  refine ⟨w, hw, ?_⟩
  have hvalid := valid_of_reachable hs
  by_cases hnone : s.layout.declaredInputs = []
  · simp only [reportCoverage, if_pos (Tally.inputsLeft_start_eq_zero_iff.mpr hnone), if_pos hnone]
  · have hleft : (Tally.start s.layout s.hints).inputsLeft ≠ 0 :=
      mt Tally.inputsLeft_start_eq_zero_iff.mp hnone
    have hstart : (Tally.start s.layout s.hints).isComplete = false := by
      simp [Tally.isComplete, hleft]
    -- the scan gets through the prefix, and its tally says whether it goes on to the next constraint
    obtain ⟨noted, hscan⟩ := exists_scan_of_declared (Tally.start s.layout s.hints)
      fun _ => firstUndeclared?_of_mem_declaredPrefix
    have haccounts := accounts_of_scan hvalid (Tally.accounts_start s.layout s.hints) hscan
    have hcomplete := isComplete_iff_covers hvalid haccounts
    simp only [reportCoverage, if_neg hleft, if_neg hnone]
    rw [hsplit, scan_append _ _ hstart, hscan]
    by_cases hcovers : s.Covers s.declaredPrefix
    · simp only [hcomplete.mpr hcovers, if_true, if_pos hcovers]
      exact judge_of_isComplete (hcomplete.mpr hcovers)
    · simp only [if_neg (mt hcomplete.mp hcovers), if_neg hcovers, scan, noteAll_eq, hc]

/-- A constraint whose left side is the sum of some wires. -/
def sumOver (wires : List Nat) : Constraint := { left := ⟨wires.map fun i => ⟨.one, ⟨i⟩⟩⟩ }

/-- Two inputs and a hint with two outputs, none of which is covered by the first constraint. The
second one names three undeclared wires, one of them with the coefficient `0`. -/
def undeclaredRun : List (Call (Residue 17)) :=
  [.declarePublic "x", .declareSecret "y", .declareInternal, .declareInternal,
    .register ⟨⟨0⟩, [], [⟨3⟩, ⟨4⟩]⟩, .append (sumOver [1, 3]) none,
    .append ⟨⟨[⟨.one, ⟨2⟩⟩, ⟨.zero, ⟨7⟩⟩]⟩, ⟨[⟨.one, ⟨9⟩⟩]⟩, ⟨[⟨.one, ⟨8⟩⟩]⟩⟩ none,
    .append (sumOver [2, 4]) none]

theorem reportCoverage_of_undeclared_partial :
    ¬ ((empty {}).run undeclaredRun).Covers ((empty {}).run undeclaredRun).declaredPrefix ∧
      ((empty {}).run undeclaredRun).reportCoverage = ⟨[], .error (.undeclaredWire ⟨9⟩ 5)⟩ := by
  have hcovers : ¬ ((empty {}).run undeclaredRun).Covers ((empty {}).run undeclaredRun).declaredPrefix := by
    decide
  have hinputs : ((empty {}).run undeclaredRun).layout.declaredInputs ≠ [] := by decide
  have hfirst : ((empty {}).run undeclaredRun).layout.firstUndeclared?
      ((empty {}).run undeclaredRun).constrainedWires = some ⟨9⟩ := by decide
  obtain ⟨w, hw, hreport⟩ :=
    reportCoverage_of_undeclared ((reachable_empty {}).run undeclaredRun) (by decide)
  rw [hfirst] at hw
  cases hw
  rw [if_neg hinputs, if_neg hcovers] at hreport
  exact ⟨hcovers, hreport⟩

/-- A constraint with an undeclared wire is not noticed after one that covers the system. In the
other order it is. -/
theorem undeclared_wire_passes :
    (∃ c ∈ ((empty {} : System (Residue 17)).run [.declarePublic "x", .append (sumOver [1]) none,
        .append (sumOver [9]) none]).constraints, ∃ w ∈ c.nonzeroWires, 2 ≤ w.index) ∧
      ((empty {} : System (Residue 17)).run [.declarePublic "x", .append (sumOver [1]) none,
        .append (sumOver [9]) none]).layout.wireCount = 2 ∧
      ((empty {} : System (Residue 17)).run [.declarePublic "x", .append (sumOver [1]) none,
        .append (sumOver [9]) none]).reportCoverage = ⟨[], .ok ()⟩ ∧
      ((empty {} : System (Residue 17)).run [.declarePublic "x", .append (sumOver [9]) none,
        .append (sumOver [1]) none]).reportCoverage = ⟨[], .error (.undeclaredWire ⟨9⟩ 2)⟩ := by
  refine ⟨by decide, by decide, ?_, ?_⟩
  · rfl
  · rfl

end System

end RankOne

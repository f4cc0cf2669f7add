import RankOne.Layout

/-!
# Declarations

A layout amounts to the declarations that it has accepted, in the order of their wires
(`Layout.declarations`). Another one is entered at their end, or it is turned down and changes
nothing (`Layout.declare_cases`). Nothing is ever moved in this list, so a wire keeps its place, its
standing and its name, whatever is declared later (`Layout.wires_dense_and_stable`).
-/

namespace RankOne

/-- A wire that a front-end asks for. -/
inductive Declaration where
  | publicInput (name : String)
  | secretInput (name : String)
  | internal
deriving DecidableEq

namespace Declaration

/-- The name that the wire is to have. Internal wires have none. -/
def name? : Declaration → Option String
  | publicInput name => some name
  | secretInput name => some name
  | internal => none

/-- Why a declaration is turned down after some others: it would break the order of the layout. A
secret input that is there already is noticed before an internal wire. -/
inductive Refused (earlier : List Declaration) : Declaration → Fault → Prop
  | publicAfterSecret {name other} : .secretInput other ∈ earlier →
      Refused earlier (.publicInput name) (.publicAfterSecret name)
  | publicAfterInternal {name} : (∀ other, .secretInput other ∉ earlier) → .internal ∈ earlier →
      Refused earlier (.publicInput name) (.inputAfterInternal name)
  | secretAfterInternal {name} : .internal ∈ earlier →
      Refused earlier (.secretInput name) (.inputAfterInternal name)

variable {earlier : List Declaration} {d : Declaration} {fault fault' : Fault}

theorem Refused.unique (h : Refused earlier d fault) (h' : Refused earlier d fault') :
    fault = fault' := by
  cases h with
  | publicAfterSecret hsecret =>
      cases h' with
      | publicAfterSecret => rfl
      | publicAfterInternal hnone => exact absurd hsecret (hnone _)
  | publicAfterInternal hnone =>
      cases h' with
      | publicAfterSecret hsecret => exact absurd hsecret (hnone _)
      | publicAfterInternal => rfl
  | secretAfterInternal =>
      cases h' with
      | secretAfterInternal => rfl

/-- A public input is let in before all secret inputs and internal wires. -/
theorem not_refused_publicInput_iff {name : String} :
    (∀ fault, ¬ Refused earlier (.publicInput name) fault) ↔
      (∀ other, .secretInput other ∉ earlier) ∧ .internal ∉ earlier := by
  constructor
  · intro h
    have hnone : ∀ other, .secretInput other ∉ earlier :=
      fun other hother => h _ (.publicAfterSecret hother)
    exact ⟨hnone, fun hinternal => h _ (.publicAfterInternal hnone hinternal)⟩
  · rintro ⟨hsecret, hinternal⟩ fault h
    cases h with
    | publicAfterSecret hother => exact hsecret _ hother
    | publicAfterInternal _ hmem => exact hinternal hmem

/-- A secret input is let in before all internal wires. -/
theorem not_refused_secretInput_iff {name : String} :
    (∀ fault, ¬ Refused earlier (.secretInput name) fault) ↔ .internal ∉ earlier := by
  constructor
  · intro h hinternal
    exact h _ (.secretAfterInternal hinternal)
  · intro hinternal fault h
    cases h with
    | secretAfterInternal hmem => exact hinternal hmem

end Declaration

namespace Layout

variable {l t : Layout} {d : Declaration} {w : Wire}

/-! ## The declarations of a layout -/

/-- The declared wires besides the constant one, in order. -/
def declarations (l : Layout) : List Declaration :=
  l.publicInputs.toList.map .publicInput ++ l.secretInputs.toList.map .secretInput ++
    List.replicate l.internalCount .internal

theorem secretInput_mem_declarations_iff {name : String} :
    .secretInput name ∈ l.declarations ↔ name ∈ l.secretInputs := by
  simp [declarations]

theorem internal_mem_declarations_iff : .internal ∈ l.declarations ↔ 0 < l.internalCount := by
  simp [declarations, Nat.pos_iff_ne_zero]

theorem wireCount_eq (l : Layout) : l.wireCount = l.declarations.length + 1 := by
  simp only [declarations, wireCount, inputCount, publicCount, secretCount, List.length_append,
    List.length_map, List.length_replicate, Array.length_toList]
  omega

/-- A wire has the name that it was declared with. -/
theorem name?_succ (l : Layout) (i : Nat) :
    l.name? ⟨i + 1⟩ = l.declarations[i]?.bind Declaration.name? := by
  have hnames : l.declarations.map Declaration.name? =
      (l.publicInputs.toList ++ l.secretInputs.toList).map some ++
        List.replicate l.internalCount none := by
    simp [declarations, Declaration.name?, Function.comp_def]
  have hbind : l.declarations[i]?.bind Declaration.name? =
      (l.declarations.map Declaration.name?)[i]?.join := by
    rw [List.getElem?_map]
    cases l.declarations[i]? <;> rfl
  rw [hbind, hnames, name?_eq_getElem?]
  show (l.publicInputs.toList ++ l.secretInputs.toList)[i]? = _
  generalize l.publicInputs.toList ++ l.secretInputs.toList = inputs
  rw [List.getElem?_append, List.length_map, List.getElem?_map, List.getElem?_replicate]
  by_cases hi : i < inputs.length
  · simp [hi]
  · rw [if_neg hi, List.getElem?_eq_none_iff.mpr (Nat.le_of_not_lt hi)]
    split <;> rfl

/-- Exactly the inputs have names. -/
theorem isSome_name?_iff : (l.name? w).isSome = true ↔ l.isInput w = true := by
  rw [name?_eq_getElem?, isInput_iff, ← length_inputNames]
  simp

/-! ## One declaration -/

/-- The outcome of a declaration that changes nothing if it is turned down. -/
def settle (l : Layout) : Except Fault (Wire × Layout) → Except Fault Wire × Layout
  | .error fault => (.error fault, l)
  | .ok (w, after) => (.ok w, after)

/-- Makes a declaration: the wire, and the layout after it. -/
def declare (l : Layout) : Declaration → Except Fault Wire × Layout
  | .publicInput name => l.settle (l.declarePublic name)
  | .secretInput name => l.settle (l.declareSecret name)
  | .internal => l.settle (.ok l.declareInternal)

/-- An input that is declared while no wire comes after it in the order stands at the end. -/
theorem declarations_push_public (hsecret : l.secretInputs = #[]) (hinternal : l.internalCount = 0)
    (name : String) : ({ l with publicInputs := l.publicInputs.push name } : Layout).declarations =
      l.declarations ++ [.publicInput name] := by
  simp [declarations, hsecret, hinternal]

theorem declarations_push_secret (hinternal : l.internalCount = 0) (name : String) :
    ({ l with secretInputs := l.secretInputs.push name } : Layout).declarations =
      l.declarations ++ [.secretInput name] := by
  simp [declarations, hinternal]

theorem declarations_declareInternal (l : Layout) :
    l.declareInternal.2.declarations = l.declarations ++ [.internal] := by
  simp only [declarations, declareInternal, List.replicate_succ', List.append_assoc]

/-- A declaration is turned down, or it is entered after those before it under the next wire. -/
theorem declare_cases (l : Layout) (d : Declaration) :
    (∃ fault, l.declare d = (.error fault, l) ∧ Declaration.Refused l.declarations d fault) ∨
    ∃ t, l.declare d = (.ok ⟨l.wireCount⟩, t) ∧ t.declarations = l.declarations ++ [d] ∧
      ∀ fault, ¬ Declaration.Refused l.declarations d fault := by
  have hsecrets : 0 < l.secretInputs.size ↔ ∃ other, .secretInput other ∈ l.declarations := by
    simp only [secretInput_mem_declarations_iff, Array.size_pos_iff_exists_mem]
  have hinternals := internal_mem_declarations_iff (l := l)
  cases d with
  | publicInput name =>
      by_cases hsecret : 0 < l.secretInputs.size
      · obtain ⟨other, hother⟩ := hsecrets.mp hsecret
        exact .inl ⟨_, by simp [declare, declarePublic, settle, hsecret], .publicAfterSecret hother⟩
      · have hnone : ∀ other, .secretInput other ∉ l.declarations :=
          fun other hother => hsecret (hsecrets.mpr ⟨other, hother⟩)
        by_cases hinternal : 0 < l.internalCount
        · exact .inl ⟨_, by simp [declare, declarePublic, settle, hsecret, hinternal],
            .publicAfterInternal hnone (hinternals.mpr hinternal)⟩
        · have hempty : l.secretInputs = #[] := Array.eq_empty_of_size_eq_zero (by omega)
          refine .inr ⟨{ l with publicInputs := l.publicInputs.push name }, ?_,
            declarations_push_public hempty (by omega) name, ?_⟩
          · have hcount : l.wireCount = l.publicCount := by
              unfold wireCount inputCount secretCount
              omega
            simp [declare, declarePublic, settle, hsecret, hinternal, hcount]
          · exact Declaration.not_refused_publicInput_iff.mpr ⟨hnone, mt hinternals.mp hinternal⟩
  | secretInput name =>
      by_cases hinternal : 0 < l.internalCount
      · exact .inl ⟨_, by simp [declare, declareSecret, settle, hinternal],
          .secretAfterInternal (hinternals.mpr hinternal)⟩
      · refine .inr ⟨{ l with secretInputs := l.secretInputs.push name }, ?_,
          declarations_push_secret (by omega) name, ?_⟩
        · have hcount : l.wireCount = l.inputCount := by
            unfold wireCount
            omega
          simp [declare, declareSecret, settle, hinternal, hcount]
        · exact Declaration.not_refused_secretInput_iff.mpr (mt hinternals.mp hinternal)
  | internal =>
      exact .inr ⟨_, rfl, l.declarations_declareInternal, fun fault h => nomatch h⟩

theorem declare_eq_error_iff {fault : Fault} :
    (l.declare d).1 = .error fault ↔ Declaration.Refused l.declarations d fault := by
  rcases l.declare_cases d with ⟨fault', hrefused, h⟩ | ⟨t, haccepted, -, hnone⟩
  · rw [hrefused]
    constructor
    · rintro ⟨⟩
      exact h
    · intro h'
      exact congrArg Except.error (h.unique h')
  · rw [haccepted]
    exact ⟨fun h => (nomatch h), fun h => absurd h (hnone fault)⟩

theorem isOk_declare_iff :
    (l.declare d).1.isOk = true ↔ ∀ fault, ¬ Declaration.Refused l.declarations d fault := by
  rcases l.declare_cases d with ⟨fault, hrefused, h⟩ | ⟨t, haccepted, -, hnone⟩
  · rw [hrefused]
    exact ⟨fun hok => (nomatch hok), fun hnone => absurd h (hnone fault)⟩
  · rw [haccepted]
    exact ⟨fun _ => hnone, fun _ => rfl⟩

/-- An accepted declaration gives the next wire the name that it asks for. -/
theorem name?_declare (h : l.declare d = (.ok w, t)) :
    w.index = l.wireCount ∧ t.wireCount = l.wireCount + 1 ∧ t.name? w = d.name? := by
  rcases l.declare_cases d with ⟨fault, hrefused, -⟩ | ⟨t', haccepted, hentered, -⟩
  · rw [hrefused] at h
    cases h
  · rw [haccepted] at h
    cases h
    refine ⟨rfl, ?_, ?_⟩
    · rw [wireCount_eq, wireCount_eq, hentered, List.length_append, List.length_singleton]
    · rw [wireCount_eq, name?_succ, hentered]
      simp

/-- A declaration that is turned down changes nothing. -/
theorem declare_of_error {fault : Fault} (h : (l.declare d).1 = .error fault) :
    (l.declare d).2 = l := by
  rcases l.declare_cases d with ⟨fault', hrefused, -⟩ | ⟨t, haccepted, -⟩
  · rw [hrefused]
  · rw [haccepted] at h
    cases h

/-! ## Runs of declarations -/

/-- The layout after some declarations, of which some may be turned down. -/
def declareAll (l : Layout) : List Declaration → Layout
  | [] => l
  | d :: rest => (l.declare d).2.declareAll rest

/-- The declarations that are not turned down. -/
def accepted (l : Layout) : List Declaration → List Declaration
  | [] => []
  | d :: rest =>
    if (l.declare d).1.isOk then d :: (l.declare d).2.accepted rest
    else (l.declare d).2.accepted rest

/-- Declarations are entered one after another, and those that are turned down leave no trace. -/
theorem declarations_declareAll (l : Layout) (ds : List Declaration) :
    (l.declareAll ds).declarations = l.declarations ++ l.accepted ds := by
  induction ds generalizing l with
  | nil => simp [declareAll, accepted]
  | cons d rest ih =>
      rcases l.declare_cases d with ⟨fault, hrefused, -⟩ | ⟨t, haccepted, hentered, -⟩
      · simp [declareAll, accepted, hrefused, ih, Except.isOk, Except.toBool]
      · simp [declareAll, accepted, haccepted, ih, hentered, Except.isOk, Except.toBool]

/-- A wire that is declared keeps its standing and its name while declarations are added. -/
theorem name?_of_declarations_eq {more : List Declaration} (hw : w.index < l.wireCount)
    (h : t.declarations = l.declarations ++ more) : t.name? w = l.name? w := by
  obtain ⟨i⟩ := w
  cases i with
  | zero => rfl
  | succ i =>
      have hi : i < l.declarations.length := by
        rw [wireCount_eq] at hw
        exact Nat.lt_of_succ_lt_succ hw
      rw [name?_succ, name?_succ, h, List.getElem?_append_left hi]

theorem name?_declareAll (hw : w.index < l.wireCount) (ds : List Declaration) :
    (l.declareAll ds).name? w = l.name? w :=
  name?_of_declarations_eq hw (l.declarations_declareAll ds)

theorem wireCount_le_declareAll (l : Layout) (ds : List Declaration) :
    l.wireCount ≤ (l.declareAll ds).wireCount := by
  rw [wireCount_eq, wireCount_eq, declarations_declareAll, List.length_append]
  omega

/-- Wires are handed out one after another, in the order of the accepted declarations. A declaration
is turned down exactly if it would break the order of the layout, and then nothing changes. A wire
keeps the standing and the name that it was declared with, whatever is declared later. Exactly the
inputs have names, and the constant one is an input from the start. -/
theorem wires_dense_and_stable (ds : List Declaration) :
    let l := ({} : Layout).declareAll ds
    let log := ({} : Layout).accepted ds
    l.wireCount = log.length + 1 ∧
    (∀ d w t, l.declare d = (.ok w, t) → w.index = l.wireCount ∧ t.wireCount = l.wireCount + 1 ∧
      ∀ later, (t.declareAll later).isInput w = d.name?.isSome ∧
        (t.declareAll later).name? w = d.name? ∧ (t.declareAll later).check w = .ok ()) ∧
    (∀ name, (l.declare (.publicInput name)).1.isOk ↔
      (∀ other, .secretInput other ∉ log) ∧ .internal ∉ log) ∧
    (∀ name, (l.declare (.secretInput name)).1.isOk ↔ .internal ∉ log) ∧
    (l.declare .internal).1.isOk ∧
    (∀ d fault, (l.declare d).1 = .error fault ↔ Declaration.Refused log d fault) ∧
    (∀ d fault, (l.declare d).1 = .error fault → (l.declare d).2 = l) ∧
    (∀ w, (l.name? w).isSome ↔ l.isInput w = true) ∧
    (∀ w, l.check w = .ok () ↔ w.index < l.wireCount) ∧
    l.isInput .one = true ∧ l.name? .one = some "1" := by
  intro l log
  have hlog : l.declarations = log := declarations_declareAll {} ds
  refine ⟨by rw [wireCount_eq, hlog], ?_, ?_, ?_, isOk_declare_iff.mpr fun _ h => (nomatch h), ?_,
    fun d fault => declare_of_error, fun w => isSome_name?_iff, fun w => check_eq_ok_iff,
    isInput_iff.mpr l.inputCount_pos, rfl⟩
  · intro d w t h
    obtain ⟨hindex, hcount, hname⟩ := name?_declare h
    refine ⟨hindex, hcount, fun later => ?_⟩
    have hdeclared : w.index < t.wireCount := by omega
    have hlater : (t.declareAll later).name? w = d.name? := by
      rw [name?_declareAll hdeclared, hname]
    refine ⟨?_, hlater, check_eq_ok_iff.mpr ?_⟩
    · rw [← hlater, Bool.eq_iff_iff, isSome_name?_iff]
    · exact Nat.lt_of_lt_of_le hdeclared (wireCount_le_declareAll t later)
  · intro name
    rw [isOk_declare_iff, hlog, Declaration.not_refused_publicInput_iff]
  · intro name
    rw [isOk_declare_iff, hlog, Declaration.not_refused_secretInput_iff]
  · intro d fault
    rw [declare_eq_error_iff, hlog]

/-- An input after each kind of wire that it may not follow, between declarations that are let
in. -/
def mixedDeclarations : List Declaration :=
  [.publicInput "x", .secretInput "y", .publicInput "late", .internal, .secretInput "later",
    .internal]

theorem wires_dense_and_stable_mixed :
    (({} : Layout).declareAll mixedDeclarations).name? ⟨2⟩ = some "y" ∧
      (({} : Layout).declareAll mixedDeclarations).name? ⟨3⟩ = none ∧
      (({} : Layout).declareAll mixedDeclarations).check ⟨3⟩ = .ok () ∧
      (({} : Layout).declareAll mixedDeclarations).wireCount = 5 ∧
      ((({} : Layout).declareAll mixedDeclarations).declare (.publicInput "latest")).1 =
        .error (.publicAfterSecret "latest") := by
  obtain ⟨-, hx, -⟩ := wires_dense_and_stable (mixedDeclarations.take 1)
  obtain ⟨-, hy, -⟩ := wires_dense_and_stable (mixedDeclarations.take 3)
  obtain ⟨hcount, -, -, -, -, hrefused, -⟩ := wires_dense_and_stable mixedDeclarations
  obtain ⟨-, -, hlater⟩ := hx (.secretInput "y") ⟨2⟩ _ rfl
  obtain ⟨-, -, hlater'⟩ := hy .internal ⟨3⟩ _ rfl
  have hsecret : .secretInput "y" ∈ ({} : Layout).accepted mixedDeclarations := by decide
  exact ⟨(hlater (mixedDeclarations.drop 2)).2.1, (hlater' (mixedDeclarations.drop 4)).2.1,
    (hlater' (mixedDeclarations.drop 4)).2.2, hcount.trans (by decide),
    (hrefused _ _).mpr (.publicAfterSecret hsecret)⟩

end Layout

end RankOne

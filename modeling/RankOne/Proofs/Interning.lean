import Mathlib.Data.List.Basic
import Mathlib.Data.List.Induction
import Mathlib.Data.List.Nodup
import RankOne.Interner
import RankOne.LinearExpression
import RankOne.Proofs.ResidueField

/-!
# Interned coefficients

An id is the first place of its coefficient in the list of values, and this list only grows at its
end. So an id that was handed out stays the first place of its coefficient, and equal coefficients
get equal ids, also where the reserved ones coincide (`CoeffTable.ids_internAll`). After the
reserved coefficients the list holds the others in the order in which they first came, each once
(`CoeffTable.interned_internAll`).

An interner asks its map for ids and its array for coefficients. The map enters each coefficient
with its first place in the array, at the start and after every coefficient that is interned, so an
interner answers as a table does (`Interner.represents_internAll`). All of this is put together in
`Interner.interning_exact`.
-/

namespace RankOne

namespace CoeffTable

variable {F : Type} [Zero F] [One F] [Add F] [Neg F] [DecidableEq F]

/-! ## One coefficient -/

/-- The id of a coefficient is its first place, or the place where it is entered. -/
theorem intern_fst (t : CoeffTable F) (c : F) : (t.intern c).1 = ⟨t.values.idxOf c⟩ := by
  rw [List.idxOf_eq_getD_idxOf?]
  unfold intern
  rw [find?_eq_idxOf?]
  cases t.values.idxOf? c with
  | none => simp [length_values]
  | some i => simp

theorem mem_values_intern (t : CoeffTable F) (c : F) : c ∈ (t.intern c).2.values := by
  rw [values_intern]
  split
  · assumption
  · simp

/-- The first place of a coefficient does not change when it is interned. -/
theorem idxOf_values_intern (t : CoeffTable F) (c : F) :
    (t.intern c).2.values.idxOf c = t.values.idxOf c := by
  rw [values_intern]
  split
  · rfl
  · rename_i hnew
    rw [List.idxOf_append, if_neg hnew, List.idxOf_cons_self, Nat.zero_add,
      List.idxOf_eq_length hnew]

/-- Once it is interned, a coefficient is found under its id, and what was found before still is. -/
theorem find?_intern (t : CoeffTable F) (c d : F) :
    (t.intern c).2.find? d = if c = d then some (t.intern c).1 else t.find? d := by
  cases hfind : t.find? c with
  | some id =>
      rw [intern, hfind]
      by_cases hd : c = d
      · rw [if_pos hd, ← hd, hfind]
      · rw [if_neg hd]
  | none =>
      have hnew : c ∉ t.values := by
        rw [find?_eq_idxOf?, Option.map_eq_none_iff] at hfind
        exact List.idxOf?_eq_none_iff.mp hfind
      have hlast : (t.values ++ [c]).idxOf? d =
          (t.values.idxOf? d).or (if c = d then some t.values.length else none) := by
        unfold List.idxOf?
        rw [List.findIdx?_append]
        by_cases hd : c = d <;> simp [hd]
      rw [intern_fst, find?_eq_idxOf?, find?_eq_idxOf?, values_intern, if_neg hnew, hlast]
      by_cases hd : c = d
      · subst hd
        rw [List.idxOf?_eq_none_iff.mpr hnew, List.idxOf_eq_length hnew]
        simp
      · simp [hd]

theorem interned_intern (t : CoeffTable F) (c : F) :
    (t.intern c).2.interned.toList =
      if c ∈ t.values then t.interned.toList else t.interned.toList ++ [c] := by
  have h := values_intern t c
  split at h <;> rename_i hold
  · rw [if_pos hold]
    exact List.append_cancel_left h
  · rw [if_neg hold]
    unfold values at h
    rw [List.append_assoc] at h
    exact List.append_cancel_left h

theorem prefix_values_intern (t : CoeffTable F) (c : F) : t.values <+: (t.intern c).2.values := by
  rw [values_intern]
  split
  · exact List.prefix_refl _
  · exact List.prefix_append _ _

/-! ## Runs of coefficients -/

/-- Interns coefficients one after another: their ids, and the table after them. -/
def internAll (t : CoeffTable F) : List F → List CoeffId × CoeffTable F
  | [] => ([], t)
  | c :: rest =>
    ((t.intern c).1 :: ((t.intern c).2.internAll rest).1, ((t.intern c).2.internAll rest).2)

theorem internAll_append_snd (t : CoeffTable F) (xs ys : List F) :
    (t.internAll (xs ++ ys)).2 = ((t.internAll xs).2.internAll ys).2 := by
  induction xs generalizing t with
  | nil => rfl
  | cons c rest ih => exact ih (t.intern c).2

/-- The values of a table stay in their places. -/
theorem prefix_values_internAll (t : CoeffTable F) (cs : List F) :
    t.values <+: (t.internAll cs).2.values := by
  induction cs generalizing t with
  | nil => exact List.prefix_refl _
  | cons c rest ih => exact (t.prefix_values_intern c).trans (ih (t.intern c).2)

/-- What an id stands for never changes. -/
theorem get?_internAll {t : CoeffTable F} {id : CoeffId} {v : F} (h : t.get? id = some v)
    (cs : List F) : (t.internAll cs).2.get? id = some v := by
  obtain ⟨more, hmore⟩ := t.prefix_values_internAll cs
  rw [get?_eq_getElem?] at h ⊢
  obtain ⟨hlt, -⟩ := List.getElem?_eq_some_iff.mp h
  rw [← hmore, List.getElem?_append_left hlt, h]

theorem mem_values_internAll (t : CoeffTable F) {cs : List F} {c : F} (hc : c ∈ cs) :
    c ∈ (t.internAll cs).2.values := by
  induction cs generalizing t with
  | nil => cases hc
  | cons d rest ih =>
      rcases List.mem_cons.mp hc with rfl | hrest
      · exact ((t.intern c).2.prefix_values_internAll rest).subset (t.mem_values_intern c)
      · exact ih (t.intern d).2 hrest

/-- All ids are the first places of their coefficients in the list of values at the end. -/
theorem ids_internAll (t : CoeffTable F) (cs : List F) :
    (t.internAll cs).1 = cs.map fun c => ⟨(t.internAll cs).2.values.idxOf c⟩ := by
  induction cs generalizing t with
  | nil => rfl
  | cons c rest ih =>
      obtain ⟨more, hmore⟩ := (t.intern c).2.prefix_values_internAll rest
      have hfirst : ((t.intern c).2.internAll rest).2.values.idxOf c = t.values.idxOf c := by
        rw [← hmore, List.idxOf_append_of_mem (t.mem_values_intern c), idxOf_values_intern]
      show (t.intern c).1 :: ((t.intern c).2.internAll rest).1 = _
      rw [ih, List.map_cons, intern_fst, ← hfirst]
      rfl

/-- The coefficients besides the reserved ones, in the order in which they first come. -/
def firstOthers (cs : List F) : List F := (cs.filter (· ∉ reserved F)).eraseDups

theorem mem_firstOthers {cs : List F} {c : F} : c ∈ firstOthers cs ↔ c ∈ cs ∧ c ∉ reserved F := by
  simp [firstOthers, List.mem_eraseDups]

theorem firstOthers_concat (cs : List F) (c : F) :
    firstOthers (cs ++ [c]) =
      if c ∈ reserved F ++ firstOthers cs then firstOthers cs else firstOthers cs ++ [c] := by
  unfold firstOthers
  rw [List.filter_append, List.eraseDups_append]
  by_cases hreserved : c ∈ reserved F
  · simp [hreserved]
  · by_cases hold : c ∈ cs <;> simp [hreserved, hold, List.removeAll, List.eraseDups_cons]

theorem nodup_firstOthers (cs : List F) : (firstOthers cs).Nodup := by
  induction cs using List.reverseRecOn with
  | nil => exact List.nodup_nil
  | append_singleton cs c ih =>
      rw [firstOthers_concat]
      split
      · exact ih
      · rename_i hnew
        rw [← List.concat_eq_append]
        exact ih.concat fun hmem => hnew (List.mem_append_right _ hmem)

/-- The table holds these after the reserved ones. -/
theorem interned_internAll (cs : List F) :
    (({} : CoeffTable F).internAll cs).2.interned.toList = firstOthers cs := by
  induction cs using List.reverseRecOn with
  | nil => rfl
  | append_singleton cs c ih =>
      rw [internAll_append_snd, firstOthers_concat, ← ih]
      exact interned_intern _ c

/-! ## Exactness -/

/-- No lower id stands for a coefficient than its first place. -/
theorem idxOf_le_of_get? {t : CoeffTable F} {id : CoeffId} {c : F} (h : t.get? id = some c) :
    t.values.idxOf c ≤ id.index := by
  rw [get?_eq_getElem?] at h
  obtain ⟨hlt, hget⟩ := List.getElem?_eq_some_iff.mp h
  refine Nat.le_of_not_lt fun hbelow => ?_
  have hother := List.not_of_lt_findIdx hbelow
  rw [hget] at hother
  simp at hother

/-- A coefficient is found at its first place, where it stands. -/
theorem find?_of_mem {t : CoeffTable F} {c : F} (h : c ∈ t.values) :
    t.find? c = some ⟨t.values.idxOf c⟩ ∧ t.get? ⟨t.values.idxOf c⟩ = some c := by
  refine ⟨?_, by rw [get?_eq_getElem?]; exact List.getElem?_idxOf h⟩
  rw [find?_eq_idxOf?, List.idxOf_eq_getD_idxOf?]
  cases hplace : t.values.idxOf? c with
  | none => exact absurd h (List.idxOf?_eq_none_iff.mp hplace)
  | some i => rfl

/-- What is found for a coefficient is the lowest id that stands for it. -/
theorem find?_eq_some_iff {t : CoeffTable F} {c : F} {id : CoeffId} :
    t.find? c = some id ↔ t.get? id = some c ∧ ∀ other, t.get? other = some c → id ≤ other := by
  have hmem : t.get? id = some c ∨ t.find? c = some id → c ∈ t.values := by
    rw [get?_eq_getElem?, find?_eq_idxOf?]
    rintro (hget | hfind)
    · exact List.mem_of_getElem? hget
    · refine Decidable.by_contra fun hnone => ?_
      rw [List.idxOf?_eq_none_iff.mpr hnone] at hfind
      cases hfind
  constructor
  · intro hfind
    obtain ⟨hplace, hget⟩ := find?_of_mem (hmem (.inr hfind))
    rw [hplace, Option.some.injEq] at hfind
    subst hfind
    exact ⟨hget, fun other hother => CoeffId.le_iff.mpr (idxOf_le_of_get? hother)⟩
  · rintro ⟨hget, hleast⟩
    obtain ⟨hplace, hfirst⟩ := find?_of_mem (hmem (.inl hget))
    rw [hplace, Option.some.injEq]
    exact CoeffId.ext (Nat.le_antisymm (idxOf_le_of_get? hget) (CoeffId.le_iff.mp (hleast _ hfirst)))

/-- Equal coefficients have equal ids, and different ones different ids. -/
theorem ids_internAll_eq_iff (t : CoeffTable F) (cs : List F) (i j : Nat) :
    (t.internAll cs).1[i]? = (t.internAll cs).1[j]? ↔ cs[i]? = cs[j]? := by
  rw [ids_internAll, List.getElem?_map, List.getElem?_map]
  cases hi : cs[i]? with
  | none => cases cs[j]? <;> simp
  | some c =>
      have hmem := t.mem_values_internAll (List.mem_of_getElem? hi)
      cases cs[j]? with
      | none => simp
      | some d => simp [List.idxOf_inj hmem]

/-- A coefficient is found in the end under the id that was handed out for it. -/
theorem getElem?_ids_internAll (t : CoeffTable F) {cs : List F} {i : Nat} {c : F}
    (h : cs[i]? = some c) :
    ∃ id, (t.internAll cs).1[i]? = some id ∧ (t.internAll cs).2.find? c = some id := by
  have hmem := t.mem_values_internAll (List.mem_of_getElem? h)
  exact ⟨_, by rw [ids_internAll, List.getElem?_map, h]; rfl, (find?_of_mem hmem).1⟩

theorem get?_internAll_add_four (cs : List F) (k : Nat) :
    (({} : CoeffTable F).internAll cs).2.get? ⟨k + 4⟩ = (firstOthers cs)[k]? := by
  rw [← interned_internAll, Array.getElem?_toList]
  rfl

end CoeffTable

section Field

variable {F : Type} [Field F] [DecidableEq F]

namespace CoeffTable

/-- Only `0` gets the id of `0`. -/
theorem intern_eq_zero_iff (t : CoeffTable F) (c : F) : (t.intern c).1 = .zero ↔ c = 0 := by
  rw [intern_fst]
  constructor
  · intro h
    have hfirst : t.values.idxOf c = 0 := congrArg CoeffId.index h
    rcases (List.idxOf_eq_zero_iff_head_eq (List.cons_ne_nil _ _)).mp hfirst with rfl
    rfl
  · rintro rfl
    exact congrArg CoeffId.mk List.idxOf_cons_self

/-- Where `1 + 1` is not `0`, only the id of `0` stands for it. -/
theorem get?_eq_some_zero_iff (htwo : (1 + 1 : F) ≠ 0) (cs : List F) (id : CoeffId) :
    (({} : CoeffTable F).internAll cs).2.get? id = some 0 ↔ id = .zero := by
  constructor
  · intro h
    obtain ⟨i⟩ := id
    match i with
    | 0 => rfl
    | 1 => exact absurd (Option.some.inj h) one_ne_zero
    | 2 => exact absurd (Option.some.inj h) htwo
    | 3 => exact absurd (Option.some.inj h) (neg_ne_zero.mpr one_ne_zero)
    | i + 4 =>
        -- `0` is reserved, so it is not among the others
        have hmem : (0 : F) ∈ firstOthers cs := by
          rw [← interned_internAll]
          exact Array.mem_toList_iff.mpr (Array.mem_of_getElem? h)
        exact absurd List.mem_cons_self (mem_firstOthers.mp hmem).2
  · rintro rfl
    rfl

end CoeffTable

end Field

/-! ## Two stores -/

namespace Interner

section Stores

variable {F : Type} [DecidableEq F] [Hashable F]

/-- Coefficients that have no id yet are entered with the first of their places. -/
theorem getElem?_enterAll (ids : Std.HashMap F CoeffId) (cs : List F) (k : Nat) (c : F) :
    (enterAll ids (cs.zipIdx k))[c]? = ids[c]?.or ((cs.idxOf? c).map fun i => ⟨k + i⟩) := by
  induction cs generalizing ids k with
  | nil => simp [enterAll]
  | cons d rest ih =>
      have hstep : enterAll ids ((d :: rest).zipIdx k) =
          enterAll (ids.insertIfNew d ⟨k⟩) (rest.zipIdx (k + 1)) := rfl
      rw [hstep, ih, Std.HashMap.getElem?_insertIfNew, List.idxOf?_cons]
      by_cases hd : d = c
      · subst hd
        by_cases hmem : d ∈ ids <;> simp [hmem]
      · simp [hd, Option.map_map, Function.comp_def, Nat.add_comm, Nat.add_left_comm]

variable [Zero F] [One F] [Add F] [Neg F]

/-- An interner holds a table if its array has the values of the table and its map finds what the
table does. -/
structure Represents (x : Interner F) (t : CoeffTable F) : Prop where
  values : x.values.toList = t.values
  ids : ∀ c : F, x.ids[c]? = t.find? c

/-- The reserved coefficients are found at the first of their places. -/
theorem represents_new : (new : Interner F).Represents {} where
  values := (List.append_nil _).symm
  ids c := by
    show (enterAll {} ((CoeffTable.reserved F).zipIdx 0))[c]? = _
    rw [getElem?_enterAll, CoeffTable.find?_eq_idxOf?]
    simp [CoeffTable.values]

namespace Represents

variable {x : Interner F} {t : CoeffTable F}

theorem size_eq (h : x.Represents t) : x.size = t.size := by
  rw [← CoeffTable.length_values, ← h.values, Array.length_toList, size]

theorem get?_eq (h : x.Represents t) (id : CoeffId) : x.get? id = t.get? id := by
  rw [CoeffTable.get?_eq_getElem?, ← h.values, Array.getElem?_toList, get?]

/-- What the map says of a coefficient is where it first stands in the array. -/
theorem getElem?_ids_iff (h : x.Represents t) {c : F} {id : CoeffId} :
    x.ids[c]? = some id ↔ x.get? id = some c ∧ ∀ other, x.get? other = some c → id ≤ other := by
  simp only [h.ids, h.get?_eq, CoeffTable.find?_eq_some_iff]

/-- Interning gives the same id, and enters a new coefficient where the table finds it from then
on. -/
theorem intern (h : x.Represents t) (c : F) :
    (x.intern c).1 = (t.intern c).1 ∧ (x.intern c).2.Represents (t.intern c).2 := by
  unfold Interner.intern CoeffTable.intern
  rw [h.ids]
  cases hfind : t.find? c with
  | some id => exact ⟨rfl, h⟩
  | none =>
      have hentered := t.find?_intern c
      rw [CoeffTable.intern, hfind] at hentered
      refine ⟨congrArg CoeffId.mk h.size_eq, ?_, fun d => ?_⟩
      · rw [Array.toList_push, h.values]
        simp [CoeffTable.values]
      · rw [Std.HashMap.getElem?_insert, hentered, h.size_eq, h.ids]
        simp

theorem internAll (h : x.Represents t) (cs : List F) :
    (x.internAll cs).1 = (t.internAll cs).1 ∧
      (x.internAll cs).2.Represents (t.internAll cs).2 := by
  induction cs generalizing x t with
  | nil => exact ⟨rfl, h⟩
  | cons c rest ih =>
      obtain ⟨hid, hafter⟩ := h.intern c
      obtain ⟨hids, hlast⟩ := ih hafter
      exact ⟨congrArg₂ List.cons hid hids, hlast⟩

end Represents

/-- After any coefficients an interner holds the table of these coefficients, and has handed out its
ids. -/
theorem represents_internAll (cs : List F) :
    ((new : Interner F).internAll cs).1 = (({} : CoeffTable F).internAll cs).1 ∧
      ((new : Interner F).internAll cs).2.Represents (({} : CoeffTable F).internAll cs).2 :=
  represents_new.internAll cs

end Stores

/-! ## Exactness -/

variable {F : Type} [Field F] [DecidableEq F] [Hashable F]

/-- Equal coefficients get equal ids and different ones different ids, over every field. An id that
was handed out stands for its coefficient ever after, no lower id does, and it is what the map
enters for the coefficient. The reserved ids stand for `0`, `1`, `1 + 1` and `-1`, and the ids after
them for the other coefficients, in the order in which they first came. Only `0` gets the id of `0`,
so terms with this id are those with the coefficient `0`, unless `1 + 1` is `0` as well. A table,
which has no map, hands out the same ids and answers alike. -/
theorem interning_exact {cs : List F} {ids : List CoeffId} {x : Interner F}
    (h : new.internAll cs = (ids, x)) :
    ids.length = cs.length ∧ (∀ i j : Nat, ids[i]? = ids[j]? ↔ cs[i]? = cs[j]?) ∧
    (∀ (i : Nat) c, cs[i]? = some c → ∃ id, ids[i]? = some id ∧ x.get? id = some c ∧
      ∀ other, x.get? other = some c → id ≤ other) ∧
    (x.get? .zero = some 0 ∧ x.get? .one = some 1 ∧ x.get? .two = some (1 + 1) ∧
      x.get? .minusOne = some (-1)) ∧
    (∀ k, x.get? ⟨k + 4⟩ = (cs.filter (· ∉ CoeffTable.reserved F)).eraseDups[k]?) ∧
    (cs.filter (· ∉ CoeffTable.reserved F)).eraseDups.Nodup ∧
    (∀ before after, cs = before ++ after → ∀ id v,
      (new.internAll before).2.get? id = some v → x.get? id = some v) ∧
    (∀ c, (x.intern c).1 = .zero ↔ c = 0) ∧
    ((1 + 1 : F) ≠ 0 → (∀ id, x.get? id = some 0 ↔ id = .zero) ∧
      ∀ term : Term, term.isZero = true ↔ x.get? term.coeff = some 0) ∧
    (∀ c id, x.ids[c]? = some id ↔
      x.get? id = some c ∧ ∀ other, x.get? other = some c → id ≤ other) ∧
    ∃ t : CoeffTable F, ({} : CoeffTable F).internAll cs = (ids, t) ∧ x.size = t.size ∧
      (∀ id, x.get? id = t.get? id) ∧ ∀ c, x.ids[c]? = t.find? c := by
  obtain ⟨hids, hx⟩ := represents_internAll cs
  rw [h] at hids hx
  replace hids : ids = (({} : CoeffTable F).internAll cs).1 := hids
  refine ⟨?_, ?_, ?_, ⟨hx.get?_eq _, hx.get?_eq _, hx.get?_eq _, hx.get?_eq _⟩,
    fun k => (hx.get?_eq _).trans (CoeffTable.get?_internAll_add_four cs k),
    CoeffTable.nodup_firstOthers cs, ?_, ?_, ?_, fun c id => hx.getElem?_ids_iff,
    _, Prod.ext hids.symm rfl, hx.size_eq, hx.get?_eq, hx.ids⟩
  · rw [hids, CoeffTable.ids_internAll, List.length_map]
  · rw [hids]
    exact CoeffTable.ids_internAll_eq_iff {} cs
  · intro i c hc
    obtain ⟨id, hid, hfind⟩ := CoeffTable.getElem?_ids_internAll {} hc
    exact ⟨id, hids ▸ hid, hx.getElem?_ids_iff.mp ((hx.ids c).trans hfind)⟩
  · rintro before after rfl id v hbefore
    rw [(represents_internAll before).2.get?_eq] at hbefore
    rw [hx.get?_eq, CoeffTable.internAll_append_snd]
    exact CoeffTable.get?_internAll hbefore after
  · intro c
    rw [(hx.intern c).1, CoeffTable.intern_eq_zero_iff]
  · intro htwo
    have hzero : ∀ id, x.get? id = some 0 ↔ id = .zero := by
      intro id
      rw [hx.get?_eq, CoeffTable.get?_eq_some_zero_iff htwo]
    refine ⟨hzero, fun term => ?_⟩
    rw [hzero, Term.isZero, decide_eq_true_iff]

/-- A coefficient that comes twice, and the reserved ones `0` and `-1`. -/
def repeatedCoefficients : List (Residue 17) := [.ofNat 5, 0, .ofNat 7, .ofNat 22, -1]

/-- Modulo 3 the id of `1 + 1` is the one of `-1` as well, and the map has only this one. -/
theorem interning_exact_repeated :
    (∃ x, new.internAll repeatedCoefficients = ([⟨4⟩, .zero, ⟨5⟩, ⟨4⟩, .minusOne], x) ∧
      x.get? ⟨4⟩ = some (.ofNat 22) ∧ x.size = 6 ∧ ∀ id, x.get? id = some 0 ↔ id = .zero) ∧
    ∃ x, new.internAll [(-1 : Residue 3)] = ([.two], x) ∧ x.get? .minusOne = some (-1) ∧
      x.ids[(-1 : Residue 3)]? = some .two ∧ ∀ other, x.get? other = some (-1) → .two ≤ other := by
  have hids : (({} : CoeffTable (Residue 17)).internAll repeatedCoefficients).1 =
      [⟨4⟩, .zero, ⟨5⟩, ⟨4⟩, .minusOne] := by cbv
  have hids' : (({} : CoeffTable (Residue 3)).internAll [-1]).1 = [.two] := by cbv
  have hnew : new.internAll repeatedCoefficients = ([⟨4⟩, .zero, ⟨5⟩, ⟨4⟩, .minusOne], _) :=
    Prod.ext ((represents_internAll _).1.trans hids) rfl
  have hnew' : new.internAll [(-1 : Residue 3)] = ([.two], _) :=
    Prod.ext ((represents_internAll _).1.trans hids') rfl
  obtain ⟨-, -, hleast, -, -, -, -, -, hzero, -, t, ht, hsize, -⟩ := interning_exact hnew
  obtain ⟨-, -, hleast', hreserved', -, -, -, -, -, hmap', -⟩ := interning_exact hnew'
  obtain ⟨id, hid, hget, -⟩ := hleast 3 (.ofNat 22) rfl
  obtain ⟨id', hid', hget', hbelow⟩ := hleast' 0 (-1) rfl
  cases hid
  cases hid'
  have hsix : t.size = 6 := by
    have hlast : t = (({} : CoeffTable (Residue 17)).internAll repeatedCoefficients).2 := by
      rw [ht]
    rw [hlast]
    cbv
  exact ⟨⟨_, hnew, hget, hsize.trans hsix, (hzero (by decide)).1⟩,
    ⟨_, hnew', hreserved'.2.2.2, (hmap' _ _).mpr ⟨hget', hbelow⟩, hbelow⟩⟩

end Interner

end RankOne

import Mathlib.Data.List.Basic
import RankOne.Rendering

/-!
# Texts that read in one way

Under the naming by places, what a constraint was can be read off its text: all of it, except which
wires its zero terms have, and whether a side is empty or a lone zero term
(`LinearExpression.collapse`).
A text falls into words at its blanks (`words`). The words of a sum are its terms with a plus
between any two of them (`LinearExpression.words_render`), those of a constraint are the words of its
three sides with a sign between any two of them (`Constraint.words_render`), and no term is a sign
(`Term.Spelled`). So two constraints have the same text exactly if they collapse to the same
(`Constraint.render_eq_iff`).
-/

namespace RankOne

/-! ## Words -/

/-- The words of a text, which has blanks between them. -/
def words (text : String) : List (List Char) := text.toList.splitOn ' '

/-- A text is known by its words. -/
theorem words_inj {a b : String} : words a = words b ↔ a = b := by
  constructor
  · intro h
    have htext := congrArg (List.intercalate [' ']) h
    rw [words, words, List.intercalate_splitOn, List.intercalate_splitOn] at htext
    exact String.toList_inj.mp htext
  · rintro rfl
    rfl

theorem words_append (a b : String) : words (a ++ " " ++ b) = words a ++ words b := by
  have htext : (a ++ " " ++ b).toList = a.toList ++ ' ' :: b.toList := by
    simp [String.toList_append]
  rw [words, htext, List.splitOn_append_cons_self]
  rfl

theorem words_eq_singleton {a : String} (h : ' ' ∉ a.toList) : words a = [a.toList] :=
  List.splitOn_eq_singleton h

/-- The words of words that are joined by pluses. -/
theorem words_intercalate {texts : List String} (hne : texts ≠ [])
    (h : ∀ a ∈ texts, ' ' ∉ a.toList) :
    words (" + ".intercalate texts) = (texts.map String.toList).intersperse ['+'] := by
  induction texts with
  | nil => exact absurd rfl hne
  | cons a rest ih =>
      obtain ⟨ha, hrest⟩ := List.forall_mem_cons.mp h
      cases rest with
      | nil =>
          rw [String.intercalate_singleton, words_eq_singleton ha]
          rfl
      | cons b rest =>
          have hplus : " + " = " " ++ ("+" ++ " ") := rfl
          have htext : " + ".intercalate (a :: b :: rest) =
              a ++ " " ++ ("+" ++ " " ++ " + ".intercalate (b :: rest)) := by
            rw [String.intercalate_cons_cons]
            nth_rewrite 1 [hplus]
            simp only [String.append_assoc]
          rw [htext, words_append, words_append, ih (List.cons_ne_nil b rest) hrest,
            words_eq_singleton ha, words_eq_singleton (by decide)]
          rfl

section Intersperse

variable {α : Type} {sep x : α} {xs ys : List α}

theorem intersperse_inj : xs.intersperse sep = ys.intersperse sep ↔ xs = ys := by
  constructor
  · intro h
    refine List.ext_getElem? fun i => ?_
    rw [← List.getElem?_intersperse_two_mul, h, List.getElem?_intersperse_two_mul]
  · rintro rfl
    rfl

theorem eq_or_mem_of_mem_intersperse (h : x ∈ xs.intersperse sep) : x = sep ∨ x ∈ xs := by
  obtain ⟨i, hi⟩ := List.getElem?_of_mem h
  rw [List.getElem?_intersperse] at hi
  split at hi
  · exact .inr (List.mem_of_getElem? hi)
  · split at hi
    · exact .inl (Option.some.inj hi).symm
    · cases hi

/-- Two functions that tell the same things apart tell the same lists apart. -/
theorem map_eq_map_iff_of_iff {β γ : Type} {f : α → β} {g : α → γ}
    (h : ∀ x y, f x = f y ↔ g x = g y) : xs.map f = ys.map f ↔ xs.map g = ys.map g := by
  induction xs generalizing ys with
  | nil => cases ys <;> simp
  | cons x xs ih => cases ys <;> simp [h, ih]

end Intersperse

/-! ## Numerals -/

/-- The decimal digits of a number. -/
def digits (n : Nat) : List Char := Nat.toDigits 10 n

theorem digits_inj {m n : Nat} : digits m = digits n ↔ m = n := by
  constructor
  · intro h
    have hread := congrArg (Nat.ofDigitChars 10 · 0) h
    simpa only [digits, Nat.ofDigitChars_toDigits (by decide : 1 < 10) (by decide : 10 ≤ 10)]
      using hread
  · rintro rfl
    rfl

theorem notMem_digits {n : Nat} {c : Char} (hc : c.isDigit = false) : c ∉ digits n := by
  intro h
  rw [Nat.isDigit_of_mem_toDigits (by decide) (by decide) h] at hc
  cases hc

/-! ## Terms -/

namespace Term

/-- The zero term that stands for all of them. -/
def nought : Term := ⟨.zero, .one⟩

/-- Forgets the wire of a zero term. -/
def collapse (t : Term) : Term := if t.isZero then nought else t

/-- The word of a term, under the naming by places. -/
def word (t : Term) : List Char := (t.render .indices).toList

/-- How the word of a term is spelled. -/
inductive Spelled (t : Term) : List Char → Prop
  | zero : t.coeff = .zero → Spelled t ['0']
  | one : t.coeff = .one → Spelled t ('v' :: digits t.wire.index)
  | minusOne : t.coeff = .minusOne → Spelled t ('-' :: 'v' :: digits t.wire.index)
  | other : t.coeff ≠ .zero → t.coeff ≠ .one → t.coeff ≠ .minusOne →
      Spelled t ('c' :: (digits t.coeff.index ++ '⋅' :: 'v' :: digits t.wire.index))

theorem spelled_word (t : Term) : t.Spelled t.word := by
  unfold word render
  split
  · exact .zero ‹_›
  · split
    · simpa [Naming.indices, Wire.label, digits] using Spelled.one ‹_›
    · split
      · simpa [Naming.indices, Wire.label, digits] using Spelled.minusOne ‹_›
      · simpa [Naming.indices, Wire.label, CoeffId.label, digits] using
          Spelled.other ‹_› ‹_› ‹_›

theorem Spelled.notMem_blank {t : Term} {w : List Char} (h : t.Spelled w) : ' ' ∉ w := by
  have hdigits : ∀ n, ' ' ∉ digits n := fun n => notMem_digits (by decide)
  cases h <;> simp [hdigits]

/-- No term is spelled like a sign. -/
theorem Spelled.ne_sign {t : Term} {w : List Char} (h : t.Spelled w) :
    w ≠ ['+'] ∧ w ≠ ['⋅'] ∧ w ≠ ['=', '='] := by
  cases h <;> simp

theorem collapse_of_isZero {t : Term} (h : t.isZero = true) : t.collapse = nought := if_pos h

/-- No text is a term's in two ways: what is lost is the wire of a zero term. -/
theorem Spelled.collapse_eq {t u : Term} {w : List Char} (ht : t.Spelled w) (hu : u.Spelled w) :
    t.collapse = u.collapse := by
  have heq : t.coeff = u.coeff → t.wire.index = u.wire.index → t.collapse = u.collapse := by
    intro hcoeff hwire
    have hsame : t = u := by
      cases t
      cases u
      exact congr (congrArg mk hcoeff) (Wire.ext hwire)
    rw [hsame]
  generalize hw : w = w' at hu
  -- the first character tells which of the four spellings it is
  cases ht with
  | zero ht =>
      cases hu with
      | zero hu =>
          rw [collapse_of_isZero (decide_eq_true ht), collapse_of_isZero (decide_eq_true hu)]
      | _ => simp at hw
  | one ht =>
      cases hu with
      | one hu => exact heq (ht.trans hu.symm) (digits_inj.mp (List.cons.inj hw).2)
      | _ => simp at hw
  | minusOne ht =>
      cases hu with
      | minusOne hu =>
          have hwire := (List.cons.inj (List.cons.inj hw).2).2
          exact heq (ht.trans hu.symm) (digits_inj.mp hwire)
      | _ => simp at hw
  | other =>
      cases hu with
      | other =>
          -- the dot cannot stand among the digits on either side of it
          have hdot : '⋅' ∉ digits t.coeff.index := notMem_digits (by decide)
          have hdot' : '⋅' ∉ 'v' :: digits t.wire.index := by
            simpa using notMem_digits (by decide)
          obtain ⟨hcoeff, -, hwire⟩ :=
            (List.append_cons_inj_of_notMem hdot hdot').mp (List.cons.inj hw).2
          exact heq (CoeffId.ext (digits_inj.mp hcoeff)) (digits_inj.mp (List.cons.inj hwire).2)
      | _ => simp at hw

/-- Terms have the same word exactly if they are the same, or both are zero terms. -/
theorem word_eq_iff {t u : Term} : t.word = u.word ↔ t.collapse = u.collapse := by
  have hcollapse : ∀ t : Term, t.collapse.word = t.word := by
    intro t
    cases hzero : t.isZero with
    | true =>
        have hcoeff : t.coeff = .zero := of_decide_eq_true hzero
        rw [collapse_of_isZero hzero, word, word, render, render, if_pos hcoeff]
        rfl
    | false => rw [collapse, if_neg (by simp [hzero])]
  constructor
  · intro h
    exact t.spelled_word.collapse_eq (h ▸ u.spelled_word)
  · intro h
    rw [← hcollapse t, h, hcollapse u]

end Term

/-! ## Sums -/

namespace LinearExpression

/-- Forgets the wires of zero terms, and whether a sum is empty or a lone zero term. -/
def collapse (e : LinearExpression) : LinearExpression :=
  if e.isEmpty then ⟨[.nought]⟩ else ⟨e.terms.map Term.collapse⟩

/-- The terms that a text shows: an empty sum shows as a zero term. -/
def shown (e : LinearExpression) : List Term := if e.isEmpty then [.nought] else e.terms

theorem collapse_eq_map_shown (e : LinearExpression) :
    e.collapse = ⟨e.shown.map Term.collapse⟩ := by
  unfold collapse shown
  split <;> rfl

theorem shown_ne_nil (e : LinearExpression) : e.shown ≠ [] := by
  unfold shown
  split
  · exact List.cons_ne_nil _ _
  · simpa [isEmpty] using ‹¬ e.isEmpty = true›

theorem render_eq_intercalate_shown (e : LinearExpression) (n : Naming) :
    e.render n = " + ".intercalate (e.shown.map (Term.render n)) := by
  unfold render shown
  split
  · rw [List.map_singleton, String.intercalate_singleton]
    rfl
  · rfl

/-- The words of a sum are its terms, with a plus between any two of them. -/
theorem words_render (e : LinearExpression) :
    words (e.render .indices) = (e.shown.map Term.word).intersperse ['+'] := by
  have hne : e.shown.map (Term.render .indices) ≠ [] := by simp [e.shown_ne_nil]
  have hblank : ∀ a ∈ e.shown.map (Term.render .indices), ' ' ∉ a.toList := by
    intro a ha
    obtain ⟨t, -, rfl⟩ := List.mem_map.mp ha
    exact t.spelled_word.notMem_blank
  rw [render_eq_intercalate_shown, words_intercalate hne hblank, List.map_map]
  rfl

/-- The signs of a constraint are no words of a sum. -/
theorem notMem_words_render (e : LinearExpression) :
    ['⋅'] ∉ words (e.render .indices) ∧ ['=', '='] ∉ words (e.render .indices) := by
  have hword : ∀ w ∈ words (e.render .indices), w ≠ ['⋅'] ∧ w ≠ ['=', '='] := by
    intro w hw
    rw [words_render] at hw
    rcases eq_or_mem_of_mem_intersperse hw with rfl | hmem
    · decide
    · obtain ⟨t, -, rfl⟩ := List.mem_map.mp hmem
      exact t.spelled_word.ne_sign.2
  exact ⟨fun h => (hword _ h).1 rfl, fun h => (hword _ h).2 rfl⟩

/-- Sums have the same words exactly if they collapse to the same. -/
theorem words_render_eq_iff {e d : LinearExpression} :
    words (e.render .indices) = words (d.render .indices) ↔ e.collapse = d.collapse := by
  rw [words_render, words_render, intersperse_inj,
    map_eq_map_iff_of_iff fun t u => Term.word_eq_iff (t := t) (u := u), collapse_eq_map_shown,
    collapse_eq_map_shown, mk.injEq]

end LinearExpression

/-! ## Constraints -/

namespace Constraint

/-- The words of a constraint are those of its sides, with a sign between any two of them. -/
theorem words_render (c : Constraint) :
    words (c.render .indices) =
      words (c.left.render .indices) ++ ['⋅'] :: (words (c.right.render .indices) ++
        ['=', '='] :: words (c.output.render .indices)) := by
  have hdot : " ⋅ " = " " ++ ("⋅" ++ " ") := rfl
  have hequals : " == " = " " ++ ("==" ++ " ") := rfl
  have htext : c.render .indices =
      c.left.render .indices ++ " " ++ ("⋅" ++ " " ++ (c.right.render .indices ++ " " ++
        ("==" ++ " " ++ c.output.render .indices))) := by
    rw [render, hdot, hequals]
    simp only [String.append_assoc]
  have hdotWord : words "⋅" = [['⋅']] := words_eq_singleton (by decide)
  have hequalsWord : words "==" = [['=', '=']] := words_eq_singleton (by decide)
  rw [htext, words_append, words_append, words_append, words_append, hdotWord, hequalsWord]
  rfl

/-- Under the naming by places, two constraints have the same text exactly if their sides agree, up
to the wires of zero terms and to whether a side is empty or a lone zero term. -/
theorem render_eq_iff (c d : Constraint) :
    c.render .indices = d.render .indices ↔
      c.left.collapse = d.left.collapse ∧ c.right.collapse = d.right.collapse ∧
        c.output.collapse = d.output.collapse := by
  obtain ⟨hleft, -⟩ := c.left.notMem_words_render
  obtain ⟨hright, hright'⟩ := c.right.notMem_words_render
  obtain ⟨houtput, houtput'⟩ := c.output.notMem_words_render
  have hrest : ['⋅'] ∉ words (c.right.render .indices) ++
      ['=', '='] :: words (c.output.render .indices) := by
    simp [hright, houtput]
  -- the dot is the first word that is one, and the equals sign the first after it
  rw [← words_inj, words_render, words_render, List.append_cons_inj_of_notMem hleft hrest,
    List.append_cons_inj_of_notMem hright' houtput', LinearExpression.words_render_eq_iff,
    LinearExpression.words_render_eq_iff, LinearExpression.words_render_eq_iff,
    eq_self, eq_self, true_and, true_and]

/-- Neither the wires of these zero terms nor the empty side can be read off. -/
example :
    (⟨{}, ⟨[⟨.zero, ⟨3⟩⟩, ⟨.one, ⟨1⟩⟩]⟩, ⟨[⟨.zero, ⟨2⟩⟩]⟩⟩ : Constraint).render .indices =
        "0 ⋅ 0 + v1 == 0" ∧
      (⟨⟨[⟨.zero, ⟨9⟩⟩]⟩, ⟨[⟨.zero, ⟨8⟩⟩, ⟨.one, ⟨1⟩⟩]⟩, {}⟩ : Constraint).render .indices =
        "0 ⋅ 0 + v1 == 0" := by
  decide

end Constraint

end RankOne

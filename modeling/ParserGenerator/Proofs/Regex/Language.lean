import Mathlib
import ParserGenerator.Regex

/-!
# The languages of regular expressions

The texts that match a regular expression form a language, and each form of regular expression is an
operation on the languages of its parts.

Results: one equation for each form, `Regex.language_concat` to `Regex.language_plus`.
-/

open scoped Computability

namespace ParserGenerator.Regex

/-- The texts that match. -/
def language (regex : Regex) : Language Char := {text | regex.Matches text}

theorem mem_language {regex : Regex} {text : List Char} :
    text ∈ regex.language ↔ regex.Matches text := Iff.rfl

theorem mem_language_leaf {set : CharSet} {text : List Char} :
    text ∈ (leaf set).language ↔ ∃ c ∈ set, text = [c] := by
  constructor
  · intro matched
    cases matched with
    | leaf member => exact ⟨_, member, rfl⟩
  · rintro ⟨c, member, rfl⟩
    exact Matches.leaf member

theorem language_concat (items : List Regex) :
    (concat items).language = (items.map language).prod := by
  induction items with
  | nil =>
      ext text
      rw [List.map_nil, List.prod_nil, Language.mem_one]
      constructor
      · intro matched
        cases matched with
        | concatNil => rfl
      · rintro rfl
        exact Matches.concatNil
  | cons item rest ih =>
      ext text
      rw [List.map_cons, List.prod_cons, ← ih, Language.mem_mul]
      constructor
      · intro matched
        cases matched with
        | concatCons head tail => exact ⟨_, head, _, tail, rfl⟩
      · rintro ⟨first, head, last, tail, rfl⟩
        exact Matches.concatCons head tail

theorem mem_sum {languages : List (Language Char)} {text : List Char} :
    text ∈ languages.sum ↔ ∃ language ∈ languages, text ∈ language := by
  induction languages with
  | nil => simp
  | cons language rest ih => rw [List.sum_cons, Language.mem_add, ih, List.exists_mem_cons_iff]

theorem language_alt (branches : List Regex) :
    (alt branches).language = (branches.map language).sum := by
  ext text
  simp only [mem_sum, List.mem_map, exists_exists_and_eq_and]
  constructor
  · intro matched
    cases matched with
    | alt member chosen => exact ⟨_, member, chosen⟩
  · rintro ⟨branch, member, chosen⟩
    exact Matches.alt member chosen

theorem language_optional (inner : Regex) :
    (optional inner).language = inner.language + 1 := by
  ext text
  rw [Language.mem_add, Language.mem_one]
  constructor
  · intro matched
    cases matched with
    | optionalNone => exact .inr rfl
    | optionalSome once => exact .inl once
  · rintro (once | rfl)
    · exact Matches.optionalSome once
    · exact Matches.optionalNone

theorem language_star (inner : Regex) : (star inner).language = inner.language∗ := by
  ext text
  rw [Language.mem_kstar]
  constructor
  · intro matched
    generalize isStar : star inner = regex at matched
    induction matched with
    | starNil => exact ⟨[], rfl, nofun⟩
    | @starCons _ first _ once _ _ again =>
        cases isStar
        obtain ⟨parts, rfl, each⟩ := again rfl
        exact ⟨first :: parts, rfl, List.forall_mem_cons.2 ⟨once, each⟩⟩
    | _ => cases isStar
  · rintro ⟨parts, rfl, each⟩
    induction parts with
    | nil => exact Matches.starNil
    | cons first rest ih =>
        obtain ⟨once, later⟩ := List.forall_mem_cons.1 each
        exact Matches.starCons once (ih later)

theorem language_plus (inner : Regex) :
    (plus inner).language = inner.language * inner.language∗ := by
  ext text
  rw [← language_star, Language.mem_mul]
  constructor
  · intro matched
    cases matched with
    | plus once again => exact ⟨_, once, _, again, rfl⟩
  · rintro ⟨first, once, last, again, rfl⟩
    exact Matches.plus once again

end ParserGenerator.Regex

import LanguageTheory.Regex.Basic

/-!
The language of a regular expression, as a relation between expressions and words. There is one
equation for each way to build an expression; the star matches a word that is a sequence of words
that the expression below it matches.
-/

set_option autoImplicit false
set_option relaxedAutoImplicit false

namespace LanguageTheory.Regex

/-- The word belongs to the language of the expression. -/
inductive Matches : Regex → Word → Prop
  | epsilon : Matches .epsilon []
  | literal (symbol : Symbol) : Matches (.literal symbol) [symbol]
  | concat {first second : Regex} {u v : Word} (left : Matches first u)
      (right : Matches second v) : Matches (.concat first second) (u ++ v)
  | unionLeft {first second : Regex} {word : Word} (left : Matches first word) :
      Matches (.union first second) word
  | unionRight {first second : Regex} {word : Word} (right : Matches second word) :
      Matches (.union first second) word
  | starNil {inner : Regex} : Matches (.star inner) []
  | starAppend {inner : Regex} {u v : Word} (once : Matches inner u)
      (more : Matches (.star inner) v) : Matches (.star inner) (u ++ v)

@[simp] theorem matches_epsilon {word : Word} : Matches .epsilon word ↔ word = [] := by
  constructor
  · intro h
    cases h
    rfl
  · rintro rfl
    exact .epsilon

@[simp] theorem matches_literal {symbol : Symbol} {word : Word} :
    Matches (.literal symbol) word ↔ word = [symbol] := by
  constructor
  · intro h
    cases h
    rfl
  · rintro rfl
    exact .literal symbol

@[simp] theorem matches_concat {first second : Regex} {word : Word} :
    Matches (.concat first second) word ↔
      ∃ u v, word = u ++ v ∧ Matches first u ∧ Matches second v := by
  constructor
  · intro h
    cases h with
    | concat left right => exact ⟨_, _, rfl, left, right⟩
  · rintro ⟨u, v, rfl, left, right⟩
    exact .concat left right

@[simp] theorem matches_union {first second : Regex} {word : Word} :
    Matches (.union first second) word ↔ Matches first word ∨ Matches second word := by
  constructor
  · intro h
    cases h with
    | unionLeft left => exact Or.inl left
    | unionRight right => exact Or.inr right
  · rintro (left | right)
    · exact .unionLeft left
    · exact .unionRight right

theorem matches_star_iff {inner : Regex} {word : Word} :
    Matches (.star inner) word ↔ ∃ parts : List Word, parts.flatten = word ∧
      ∀ part ∈ parts, Matches inner part := by
  constructor
  · intro h
    generalize shape : Regex.star inner = r at h
    induction h with
    | starNil => exact ⟨[], rfl, by simp⟩
    | starAppend once _ _ ih =>
      obtain ⟨rfl⟩ := Regex.star.inj shape
      obtain ⟨parts, rfl, each⟩ := ih shape
      refine ⟨_ :: parts, rfl, ?_⟩
      intro part member
      rcases List.mem_cons.mp member with rfl | member
      · exact once
      · exact each part member
    | epsilon => exact nomatch shape
    | literal _ => exact nomatch shape
    | concat _ _ _ _ => exact nomatch shape
    | unionLeft _ _ => exact nomatch shape
    | unionRight _ _ => exact nomatch shape
  · rintro ⟨parts, rfl, each⟩
    induction parts with
    | nil => exact .starNil
    | cons part parts ih =>
      exact .starAppend (each part (by simp)) (ih fun p member => each p (by simp [member]))

end LanguageTheory.Regex

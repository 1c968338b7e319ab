import LanguageTheory.Regex.Basic
import LanguageTheory.Regex.Language

/-!
Grouping. Concatenation and union are associative, so expressions that differ only in how they group
chains of them (`Regroups`) match the same words and are printed alike. Each class of such
expressions has one member that groups concatenations to the left and unions to the right
(`eq_regrouped_iff`).
-/

set_option autoImplicit false
set_option relaxedAutoImplicit false

namespace LanguageTheory.Regex

variable {r s t : Regex}

/-- The concatenation of two expressions whose chains are grouped to the left. -/
def appendLeft (before : Regex) : Regex → Regex
  | concat first last => concat (appendLeft before first) last
  | last => concat before last

/-- The union of two expressions whose chains are grouped to the right. -/
def appendRight : Regex → Regex → Regex
  | union first rest, after => union first (appendRight rest after)
  | first, after => union first after

def regrouped : Regex → Regex
  | epsilon => epsilon
  | literal symbol => literal symbol
  | concat first second => appendLeft first.regrouped second.regrouped
  | union first second => appendRight first.regrouped second.regrouped
  | star inner => star inner.regrouped

/-- No concatenation has a concatenation as its second operand, and no union a union as its
first. -/
inductive Grouped : Regex → Prop
  | epsilon : Grouped .epsilon
  | literal (symbol : Symbol) : Grouped (.literal symbol)
  | concat {first second : Regex} (left : Grouped first) (right : Grouped second)
      (single : second.strength ≠ 1) : Grouped (.concat first second)
  | union {first second : Regex} (left : Grouped first) (right : Grouped second)
      (single : first.strength ≠ 0) : Grouped (.union first second)
  | star {inner : Regex} (below : Grouped inner) : Grouped (.star inner)

/-- Both expressions are the same but for the grouping of chains. -/
inductive Regroups : Regex → Regex → Prop
  | concatAssoc (r s t : Regex) : Regroups (.concat (.concat r s) t) (.concat r (.concat s t))
  | unionAssoc (r s t : Regex) : Regroups (.union (.union r s) t) (.union r (.union s t))
  | refl (r : Regex) : Regroups r r
  | symm {r s : Regex} (same : Regroups r s) : Regroups s r
  | trans {r s t : Regex} (first : Regroups r s) (second : Regroups s t) : Regroups r t
  | concat {r r' s s' : Regex} (left : Regroups r r') (right : Regroups s s') :
      Regroups (.concat r s) (.concat r' s')
  | union {r r' s s' : Regex} (left : Regroups r r') (right : Regroups s s') :
      Regroups (.union r s) (.union r' s')
  | star {r r' : Regex} (below : Regroups r r') : Regroups (.star r) (.star r')

section Chains

private theorem appendLeft_of_single (single : t.strength ≠ 1) : appendLeft s t = concat s t := by
  cases t with
  | concat _ _ => exact absurd rfl single
  | epsilon => rfl
  | literal _ => rfl
  | union _ _ => rfl
  | star _ => rfl

private theorem appendRight_of_single (single : s.strength ≠ 0) : appendRight s t = union s t := by
  cases s with
  | union _ _ => exact absurd rfl single
  | epsilon => rfl
  | literal _ => rfl
  | concat _ _ => rfl
  | star _ => rfl

private theorem appendLeft_assoc (r s t : Regex) :
    appendLeft (appendLeft r s) t = appendLeft r (appendLeft s t) := by
  induction t with
  | concat first last ih _ => exact congrArg (concat · last) ih
  | epsilon => rfl
  | literal _ => rfl
  | union _ _ => rfl
  | star _ => rfl

private theorem appendRight_assoc (r s t : Regex) :
    appendRight (appendRight r s) t = appendRight r (appendRight s t) := by
  induction r with
  | union first rest _ ih => exact congrArg (union first) ih
  | epsilon => rfl
  | literal _ => rfl
  | concat _ _ => rfl
  | star _ => rfl

private theorem grouped_appendLeft (before : Grouped s) (last : Grouped t) :
    Grouped (appendLeft s t) := by
  induction last with
  | concat _ right single ih _ => exact .concat ih right single
  | epsilon => exact .concat before .epsilon (by decide)
  | literal symbol => exact .concat before (.literal symbol) (by simp [strength])
  | union left right single _ _ =>
    exact .concat before (.union left right single) (by simp [strength])
  | star below _ => exact .concat before (.star below) (by simp [strength])

private theorem grouped_appendRight (first : Grouped s) (after : Grouped t) :
    Grouped (appendRight s t) := by
  induction first with
  | union left _ single _ ih => exact .union left ih single
  | epsilon => exact .union .epsilon after (by decide)
  | literal symbol => exact .union (.literal symbol) after (by simp [strength])
  | concat left right single _ _ =>
    exact .union (.concat left right single) after (by simp [strength])
  | star below _ => exact .union (.star below) after (by simp [strength])

private theorem regroups_appendLeft (s t : Regex) : Regroups (concat s t) (appendLeft s t) := by
  induction t with
  | concat first last ih _ =>
    exact (Regroups.concatAssoc s first last).symm.trans (.concat ih (.refl last))
  | epsilon => exact .refl _
  | literal _ => exact .refl _
  | union _ _ => exact .refl _
  | star _ => exact .refl _

private theorem regroups_appendRight (s t : Regex) : Regroups (union s t) (appendRight s t) := by
  induction s with
  | union first rest _ ih =>
    exact (Regroups.unionAssoc first rest t).trans (.union (.refl first) ih)
  | epsilon => exact .refl _
  | literal _ => exact .refl _
  | concat _ _ => exact .refl _
  | star _ => exact .refl _

end Chains

section Classes

private theorem grouped_regrouped (r : Regex) : r.regrouped.Grouped := by
  induction r with
  | epsilon => exact .epsilon
  | literal symbol => exact .literal symbol
  | concat _ _ first second => exact grouped_appendLeft first second
  | union _ _ first second => exact grouped_appendRight first second
  | star _ inner => exact .star inner

theorem regroups_regrouped (r : Regex) : r.Regroups r.regrouped := by
  induction r with
  | epsilon => exact .refl _
  | literal _ => exact .refl _
  | concat _ _ first second => exact (Regroups.concat first second).trans (regroups_appendLeft _ _)
  | union _ _ first second => exact (Regroups.union first second).trans (regroups_appendRight _ _)
  | star _ inner => exact .star inner

private theorem Grouped.regrouped_eq (grouped : r.Grouped) : r.regrouped = r := by
  induction grouped with
  | epsilon => rfl
  | literal _ => rfl
  | concat _ _ single first second => rw [regrouped, first, second, appendLeft_of_single single]
  | union _ _ single first second => rw [regrouped, first, second, appendRight_of_single single]
  | star _ inner => rw [regrouped, inner]

private theorem Regroups.regrouped_eq (same : r.Regroups s) : r.regrouped = s.regrouped := by
  induction same with
  | concatAssoc r s t => exact appendLeft_assoc _ _ _
  | unionAssoc r s t => exact appendRight_assoc _ _ _
  | refl _ => rfl
  | symm _ ih => exact ih.symm
  | trans _ _ first second => exact first.trans second
  | concat _ _ left right => rw [regrouped, regrouped, left, right]
  | union _ _ left right => rw [regrouped, regrouped, left, right]
  | star _ below => rw [regrouped, regrouped, below]

theorem eq_regrouped_iff : s = r.regrouped ↔ s.Grouped ∧ r.Regroups s := by
  constructor
  · rintro rfl
    exact ⟨grouped_regrouped r, regroups_regrouped r⟩
  · rintro ⟨grouped, same⟩
    rw [same.regrouped_eq, grouped.regrouped_eq]

end Classes

section Meaning

theorem Regroups.matches_iff (same : r.Regroups s) {word : Word} :
    r.Matches word ↔ s.Matches word := by
  induction same generalizing word with
  | concatAssoc r s t =>
    simp only [matches_concat]
    constructor
    · rintro ⟨_, w, rfl, ⟨u, v, rfl, first, second⟩, third⟩
      exact ⟨u, v ++ w, List.append_assoc u v w, first, v, w, rfl, second, third⟩
    · rintro ⟨u, _, rfl, first, v, w, rfl, second, third⟩
      exact ⟨u ++ v, w, (List.append_assoc u v w).symm, ⟨u, v, rfl, first, second⟩, third⟩
  | unionAssoc r s t => simp only [matches_union, or_assoc]
  | refl _ => rfl
  | symm _ ih => exact ih.symm
  | trans _ _ first second => exact first.trans second
  | concat _ _ left right => simp only [matches_concat, left, right]
  | union _ _ left right => simp only [matches_union, left, right]
  | star _ below => simp only [matches_star_iff, below]

private theorem Regroups.strength_eq (same : r.Regroups s) : r.strength = s.strength := by
  induction same with
  | symm _ ih => exact ih.symm
  | trans _ _ first second => exact first.trans second
  | concatAssoc r s t => rfl
  | unionAssoc r s t => rfl
  | refl _ => rfl
  | concat _ _ _ _ => rfl
  | union _ _ _ _ => rfl
  | star _ _ => rfl

theorem strength_regrouped (r : Regex) : r.regrouped.strength = r.strength :=
  (regroups_regrouped r).strength_eq.symm

def operandText (r : Regex) (tightness : Nat) : String :=
  if r.strength < tightness then parenthesized r.text else r.text

theorem text_concat (s t : Regex) : (concat s t).text = s.operandText 1 ++ t.operandText 1 := rfl

theorem text_star (r : Regex) : (star r).text = r.operandText 2 ++ "*" := rfl

theorem Regroups.text_eq (same : r.Regroups s) : r.text = s.text := by
  induction same with
  | concatAssoc r s t =>
    have first : (Regex.concat r s).operandText 1 = r.operandText 1 ++ s.operandText 1 := rfl
    have second : (Regex.concat s t).operandText 1 = s.operandText 1 ++ t.operandText 1 := rfl
    rw [text_concat, text_concat, first, second, String.append_assoc]
  | unionAssoc r s t => simp only [text, String.append_assoc]
  | refl _ => rfl
  | symm _ ih => exact ih.symm
  | trans _ _ first second => exact first.trans second
  | concat left right first second =>
    simp only [text_concat, operandText, left.strength_eq, right.strength_eq, first, second]
  | union _ _ first second => simp only [text, first, second]
  | star below inner => simp only [text_star, operandText, below.strength_eq, inner]

end Meaning

end LanguageTheory.Regex

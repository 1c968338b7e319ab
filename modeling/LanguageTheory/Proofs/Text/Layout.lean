import Mathlib.Data.List.Infix
import LanguageTheory.Text

/-!
Text that is put together from parts. Cutting at separators, at blanks and at the first marker takes
it apart again, and what cutting gives is a part of the text without separators.
-/

set_option autoImplicit false
set_option relaxedAutoImplicit false

namespace LanguageTheory.Text

variable {separates : Char → Bool} {text part rest marker before after : List Char}

section Separators

private theorem splitWhere_of_none (plain : ∀ c ∈ part, separates c = false) :
    splitWhere separates part = [part] := by
  induction part with
  | nil => rfl
  | cons c part ih =>
    rw [List.forall_mem_cons] at plain
    simp [splitWhere, plain.1, ih plain.2]

theorem splitWhere_append {c : Char} (plain : ∀ c ∈ part, separates c = false)
    (here : separates c = true) :
    splitWhere separates (part ++ c :: rest) = part :: splitWhere separates rest := by
  induction part with
  | nil => simp [splitWhere, here]
  | cons d part ih =>
    rw [List.forall_mem_cons] at plain
    simp [splitWhere, plain.1, ih plain.2]

private theorem splitWhere_intercalate {c : Char} (here : separates c = true)
    {parts : List (List Char)} (filled : parts ≠ [])
    (plain : ∀ part ∈ parts, ∀ c ∈ part, separates c = false) :
    splitWhere separates ([c].intercalate parts) = parts := by
  induction parts with
  | nil => exact absurd rfl filled
  | cons part parts ih =>
    rw [List.forall_mem_cons] at plain
    cases parts with
    | nil => rw [List.intercalate_singleton, splitWhere_of_none plain.1]
    | cons next parts =>
      rw [List.intercalate_cons_cons, List.append_assoc, List.singleton_append,
        splitWhere_append plain.1 here, ih (List.cons_ne_nil next parts) plain.2]

theorem splitWhere_ne_nil (separates : Char → Bool) (text : List Char) :
    splitWhere separates text ≠ [] := by
  cases text with
  | nil => exact List.cons_ne_nil [] []
  | cons c rest =>
    unfold splitWhere
    split
    · exact List.cons_ne_nil [] _
    · split
      · exact List.cons_ne_nil [c] []
      · exact List.cons_ne_nil _ _

private theorem splitWhere_cons (separates : Char → Bool) (c : Char) (rest : List Char) :
    (separates c = true ∧ splitWhere separates (c :: rest) = [] :: splitWhere separates rest) ∨
    ∃ part parts, separates c = false ∧ splitWhere separates rest = part :: parts ∧
      splitWhere separates (c :: rest) = (c :: part) :: parts := by
  cases here : separates c with
  | true => exact Or.inl ⟨rfl, by rw [splitWhere, if_pos here]⟩
  | false =>
    obtain ⟨part, parts, split⟩ := List.exists_cons_of_ne_nil (splitWhere_ne_nil separates rest)
    refine Or.inr ⟨part, parts, rfl, split, ?_⟩
    rw [splitWhere, if_neg (Bool.eq_false_iff.mp here), split]

theorem separates_of_mem_splitWhere (mem : part ∈ splitWhere separates text) :
    ∀ c ∈ part, separates c = false := by
  induction text generalizing part with
  | nil =>
    obtain rfl := List.mem_singleton.mp mem
    exact fun c inside => absurd inside List.not_mem_nil
  | cons c rest ih =>
    rcases splitWhere_cons separates c rest with ⟨_, split⟩ | ⟨first, parts, plain, found, split⟩
    · rcases List.mem_cons.mp (split ▸ mem) with rfl | later
      · exact fun c inside => absurd inside List.not_mem_nil
      · exact ih later
    · rcases List.mem_cons.mp (split ▸ mem) with rfl | later
      · exact List.forall_mem_cons.mpr ⟨plain, ih (found ▸ List.mem_cons_self)⟩
      · exact ih (found ▸ List.mem_cons_of_mem first later)

private theorem prefix_of_splitWhere {parts : List (List Char)}
    (cut : splitWhere separates text = part :: parts) : part <+: text := by
  induction text generalizing part parts with
  | nil =>
    obtain ⟨rfl, _⟩ := List.cons.inj cut
    exact List.nil_prefix
  | cons c rest ih =>
    rcases splitWhere_cons separates c rest with ⟨_, split⟩ | ⟨first, others, _, found, split⟩
    · obtain ⟨rfl, _⟩ := List.cons.inj (split.symm.trans cut)
      exact List.nil_prefix
    · obtain ⟨rfl, _⟩ := List.cons.inj (split.symm.trans cut)
      exact List.cons_prefix_cons.mpr ⟨rfl, ih found⟩

private theorem infix_of_mem_splitWhere (mem : part ∈ splitWhere separates text) :
    part <:+: text := by
  induction text generalizing part with
  | nil =>
    obtain rfl := List.mem_singleton.mp mem
    exact List.infix_refl []
  | cons c rest ih =>
    rcases splitWhere_cons separates c rest with ⟨_, split⟩ | ⟨first, others, _, found, split⟩
    · rcases List.mem_cons.mp (split ▸ mem) with rfl | later
      · exact List.nil_infix
      · exact List.infix_cons (ih later)
    · rcases List.mem_cons.mp (split ▸ mem) with rfl | later
      · exact (prefix_of_splitWhere split).isInfix
      · exact List.infix_cons (ih (found ▸ List.mem_cons_of_mem first later))

/-- In front of a character of a part stand as many separators as there are parts before it. -/
theorem exists_place_of_splitAt {separator c : Char} {index : Nat}
    (found : (splitAt separator text)[index]? = some part) (inside : c ∈ part) :
    ∃ before after, text = before ++ c :: after ∧ before.count separator = index := by
  induction text generalizing index part with
  | nil =>
    have empty : part = [] := List.mem_singleton.mp (List.mem_of_getElem? found)
    exact absurd (empty ▸ inside) List.not_mem_nil
  | cons d rest ih =>
    have behind {place : Nat} {other : List Char}
        (found : (splitAt separator rest)[place]? = some other) (inside : c ∈ other) :
        ∃ before after, d :: rest = before ++ c :: after ∧
          before.count separator = place + if d == separator then 1 else 0 := by
      obtain ⟨before, after, rfl, count⟩ := ih found inside
      exact ⟨d :: before, after, rfl, by rw [List.count_cons, count]⟩
    unfold splitAt at found
    rcases splitWhere_cons (fun c => decide (c = separator)) d rest with
      ⟨here, split⟩ | ⟨first, others, plain, cut, split⟩
    · rw [split] at found
      cases index with
      | zero => exact absurd (Option.some.inj found ▸ inside) List.not_mem_nil
      | succ index => simpa [of_decide_eq_true here] using behind found inside
    · have other : d ≠ separator := of_decide_eq_false plain
      rw [split] at found
      cases index with
      | zero =>
        obtain rfl := Option.some.inj found
        rcases List.mem_cons.mp inside with rfl | inside
        · exact ⟨[], rest, rfl, rfl⟩
        · have begins : (splitAt separator rest)[0]? = some first := by rw [splitAt, cut]; rfl
          simpa [other] using behind begins inside
      | succ index =>
        have later : (splitAt separator rest)[index + 1]? = some part := by
          rw [splitAt, cut]; exact found
        simpa [other] using behind later inside

theorem mem_intercalate {c : Char} {middle : List Char} {parts : List (List Char)}
    (mem : c ∈ middle.intercalate parts) : c ∈ middle ∨ ∃ part ∈ parts, c ∈ part := by
  induction parts with
  | nil => simp at mem
  | cons part parts ih =>
    cases parts with
    | nil => exact Or.inr ⟨part, by simpa using mem⟩
    | cons next parts =>
      rw [List.intercalate_cons_cons, List.mem_append, List.mem_append] at mem
      rcases mem with (inside | between) | later
      · exact Or.inr ⟨part, List.mem_cons_self, inside⟩
      · exact Or.inl between
      · refine (ih later).imp_right ?_
        rintro ⟨other, found, inside⟩
        exact ⟨other, List.mem_cons_of_mem part found, inside⟩

end Separators

section Blanks

theorem isBlank_of_mem_blank : ∀ c ∈ [' '], isBlank c = true :=
  List.forall_mem_singleton.mpr (by decide)

theorem fields_intercalate {parts : List (List Char)}
    (visible : ∀ part ∈ parts, part ≠ [] ∧ ∀ c ∈ part, isBlank c = false) :
    fields ([' '].intercalate parts) = parts := by
  cases parts with
  | nil => rfl
  | cons part parts =>
    rw [fields, splitWhere_intercalate (by decide) (List.cons_ne_nil part parts) fun part mem =>
      (visible part mem).2]
    refine List.filter_eq_self.mpr fun part mem => ?_
    simpa using (visible part mem).1

theorem visible_of_mem_fields (mem : part ∈ fields text) :
    part ≠ [] ∧ ∀ c ∈ part, isBlank c = false := by
  obtain ⟨cut, filled⟩ := List.mem_filter.mp mem
  exact ⟨by simpa using filled, separates_of_mem_splitWhere cut⟩

theorem infix_of_mem_fields (mem : part ∈ fields text) : part <:+: text :=
  infix_of_mem_splitWhere (List.mem_filter.mp mem).1

theorem trim_infix (text : List Char) : trim text <:+: text := by
  have back := List.dropWhile_suffix (l := (text.dropWhile isBlank).reverse) isBlank
  have front := List.dropWhile_suffix (l := text) isBlank
  have cut : trim text <:+: text.dropWhile isBlank := by
    rw [trim, ← List.reverse_infix, List.reverse_reverse]
    exact back.isInfix
  exact cut.trans front.isInfix

private theorem dropWhile_blank (blank : ∀ c ∈ before, isBlank c = true)
    (first : ∀ c ∈ text.head?, isBlank c = false) :
    (before ++ text).dropWhile isBlank = text := by
  rw [List.dropWhile_append_of_pos blank]
  cases text with
  | nil => rfl
  | cons c text => exact List.dropWhile_cons_of_neg (by simpa using first c rfl)

structure VisibleEnds (text : List Char) : Prop where
  filled : text ≠ []
  first : ∀ c ∈ text.head?, isBlank c = false
  last : ∀ c ∈ text.getLast?, isBlank c = false

theorem VisibleEnds.of_visible (filled : text ≠ []) (visible : ∀ c ∈ text, isBlank c = false) :
    VisibleEnds text :=
  ⟨filled, fun c mem => visible c (List.mem_of_mem_head? mem),
    fun c mem => visible c (List.mem_of_mem_getLast? mem)⟩

theorem VisibleEnds.around (left : VisibleEnds before) (middle : List Char)
    (right : VisibleEnds after) : VisibleEnds (before ++ middle ++ after) := by
  refine ⟨List.append_ne_nil_of_right_ne_nil _ right.filled, ?_, ?_⟩
  · rw [List.append_assoc, List.head?_append_of_ne_nil before left.filled]
    exact left.first
  · rw [List.getLast?_append_of_ne_nil _ right.filled]
    exact right.last

theorem VisibleEnds.intercalate {parts : List (List Char)} (filled : parts ≠ [])
    (ends : ∀ part ∈ parts, VisibleEnds part) (middle : List Char) :
    VisibleEnds (middle.intercalate parts) := by
  induction parts with
  | nil => exact absurd rfl filled
  | cons part parts ih =>
    rw [List.forall_mem_cons] at ends
    cases parts with
    | nil =>
      rw [List.intercalate_singleton]
      exact ends.1
    | cons next parts =>
      rw [List.intercalate_cons_cons]
      exact ends.1.around middle (ih (List.cons_ne_nil next parts) ends.2)

theorem trim_padded (blank_before : ∀ c ∈ before, isBlank c = true)
    (blank_after : ∀ c ∈ after, isBlank c = true) (ends : VisibleEnds text) :
    trim (before ++ text ++ after) = text := by
  have front : (before ++ text ++ after).dropWhile isBlank = text ++ after := by
    rw [List.append_assoc]
    refine dropWhile_blank blank_before ?_
    rw [List.head?_append_of_ne_nil text ends.filled]
    exact ends.first
  have back : (after.reverse ++ text.reverse).dropWhile isBlank = text.reverse := by
    refine dropWhile_blank (fun c mem => blank_after c (List.mem_reverse.mp mem)) ?_
    rw [List.head?_reverse]
    exact ends.last
  rw [trim, front, List.reverse_append, back, List.reverse_reverse]

theorem VisibleEnds.trim_eq (ends : VisibleEnds text) : trim text = text := by
  have padded : trim ([] ++ text ++ []) = text :=
    trim_padded (List.forall_mem_nil _) (List.forall_mem_nil _) ends
  simpa using padded

theorem map_trim_splitWhere {c : Char} (here : separates c = true) (other : separates ' ' = false)
    {parts : List (List Char)} (filled : parts ≠ [])
    (plain : ∀ part ∈ parts, ∀ c ∈ part, separates c = false)
    (ends : ∀ part ∈ parts, VisibleEnds part) :
    (splitWhere separates (' ' :: [' ', c, ' '].intercalate parts)).map trim = parts := by
  induction parts with
  | nil => exact absurd rfl filled
  | cons part parts ih =>
    rw [List.forall_mem_cons] at plain ends
    have front : ∀ c ∈ ' ' :: part, separates c = false := List.forall_mem_cons.mpr ⟨other, plain.1⟩
    cases parts with
    | nil =>
      have alone : trim ([' '] ++ part ++ []) = part :=
        trim_padded isBlank_of_mem_blank (List.forall_mem_nil _) ends.1
      rw [List.append_nil] at alone
      rw [List.intercalate_singleton, splitWhere_of_none front, List.map_singleton]
      exact congrArg (fun text => [text]) alone
    | cons next parts =>
      have padded : trim ([' '] ++ part ++ [' ']) = part :=
        trim_padded isBlank_of_mem_blank isBlank_of_mem_blank ends.1
      have cut : ' ' :: [' ', c, ' '].intercalate (part :: next :: parts) =
          ([' '] ++ part ++ [' ']) ++ c :: (' ' :: [' ', c, ' '].intercalate (next :: parts)) := by
        simp [List.intercalate_cons_cons]
      have before : ∀ c ∈ [' '] ++ part ++ [' '], separates c = false := by
        simpa [or_imp, forall_and, other] using plain.1
      rw [cut, splitWhere_append before here, List.map_cons, padded,
        ih (List.cons_ne_nil next parts) plain.2 ends.2]

end Blanks

section Markers

theorem not_infix_of_cutAtFirst_eq_none (uncut : cutAtFirst marker text = none)
    (filled : marker ≠ []) : ¬ marker <:+: text := by
  induction text with
  | nil => exact fun found => filled (List.infix_nil.mp found)
  | cons c rest ih =>
    unfold cutAtFirst at uncut
    split at uncut
    · cases uncut
    · rename_i other
      rw [List.infix_cons_iff, not_or]
      exact ⟨fun found => other (List.isPrefixOf_iff_prefix.mpr found),
        ih (Option.map_eq_none_iff.mp uncut)⟩

theorem not_infix_of_cutAtFirst_eq_some (cut : cutAtFirst marker text = some (before, after))
    (filled : marker ≠ []) : ¬ marker <:+: before := by
  induction text generalizing before with
  | nil => cases cut
  | cons c rest ih =>
    unfold cutAtFirst at cut
    split at cut
    · obtain ⟨rfl, _⟩ := Prod.mk.inj (Option.some.inj cut)
      exact fun found => filled (List.infix_nil.mp found)
    · rename_i other
      obtain ⟨⟨before', after'⟩, found, same⟩ := Option.map_eq_some_iff.mp cut
      obtain ⟨rfl, rfl⟩ := Prod.mk.inj same
      rw [List.infix_cons_iff, not_or]
      refine ⟨fun begins => other (List.isPrefixOf_iff_prefix.mpr ?_), ih found⟩
      rw [append_of_cutAtFirst found, List.append_assoc, ← List.cons_append]
      exact begins.trans (List.prefix_append _ _)

theorem cutAtFirst_append {c : Char} (absent : ¬ marker <:+: before) (other : c ∉ marker)
    (filled : marker ≠ []) :
    cutAtFirst marker (before ++ c :: (marker ++ after)) = some (before ++ [c], after) := by
  have not_prefix {front : List Char} (absent : ¬ marker <:+: front) :
      ¬ marker.isPrefixOf (front ++ c :: (marker ++ after)) = true := by
    rw [List.isPrefixOf_iff_prefix]
    intro begins
    have short : front ++ [c] <+: front ++ c :: (marker ++ after) := ⟨marker ++ after, by simp⟩
    rcases List.prefix_or_prefix_of_prefix begins short with within | beyond
    · rcases List.prefix_concat_iff.mp within with same | within
      · exact other (by simp [same])
      · exact absent within.isInfix
    · exact other (beyond.subset (by simp))
  induction before with
  | nil =>
    have found : cutAtFirst marker (marker ++ after) = some ([], after) := by
      obtain ⟨first, rest, rfl⟩ := List.exists_cons_of_ne_nil filled
      rw [List.cons_append, cutAtFirst, if_pos]
      · simp
      · exact List.isPrefixOf_iff_prefix.mpr (List.prefix_append (first :: rest) after)
    have here : ¬ marker.isPrefixOf (c :: (marker ++ after)) = true := not_prefix absent
    rw [List.nil_append, cutAtFirst, if_neg here, found]
    rfl
  | cons d before ih =>
    have here : ¬ marker.isPrefixOf (d :: (before ++ c :: (marker ++ after))) = true :=
      not_prefix absent
    rw [List.cons_append, cutAtFirst, if_neg here, ih fun found => absent (List.infix_cons found)]
    rfl

private theorem infix_append_cons {c : Char} (other : c ∉ marker)
    (found : marker <:+: before ++ c :: after) :
    marker <:+: before ∨ marker <:+: after := by
  have none_begins {part : List Char} (begins : part <+: c :: after) (outside : c ∉ part) :
      part = [] := by
    cases part with
    | nil => rfl
    | cons d part => exact absurd ((List.cons_prefix_cons.mp begins).1 ▸ List.mem_cons_self) outside
  rcases List.infix_append_iff.mp found with left | right | ⟨front, back, rfl, left, right⟩
  · exact Or.inl left
  · rcases List.infix_cons_iff.mp right with begins | later
    · rw [none_begins begins other]
      exact Or.inl (List.nil_infix)
    · exact Or.inr later
  · have outside : c ∉ back := fun inside => other (List.mem_append_right front inside)
    rw [none_begins right outside, List.append_nil]
    exact Or.inl left.isInfix

theorem infix_intercalate {c : Char} (other : c ∉ marker) {parts : List (List Char)}
    (filled : marker ≠ []) (found : marker <:+: [c].intercalate parts) :
    ∃ part ∈ parts, marker <:+: part := by
  induction parts with
  | nil => exact absurd (List.infix_nil.mp found) filled
  | cons part parts ih =>
    cases parts with
    | nil => exact ⟨part, by simpa using found⟩
    | cons next parts =>
      rw [List.intercalate_cons_cons, List.append_assoc, List.singleton_append] at found
      rcases infix_append_cons other found with here | later
      · exact ⟨part, List.mem_cons_self, here⟩
      · obtain ⟨found_part, mem, inside⟩ := ih later
        exact ⟨found_part, List.mem_cons_of_mem part mem, inside⟩

end Markers

end LanguageTheory.Text

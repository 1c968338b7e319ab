import Mathlib.Data.List.Nodup
import Mathlib.Data.List.Range
import LanguageTheory.Regex.Compilation
import LanguageTheory.Regex.Language

/-!
The words of positions that a numbered expression spells. If no position occurs twice, such a word
is found by going from position to position: it begins in `first`, each next position is in `follow`
of the one before it, and it ends in `last`. `After` says what may still come when a position has
been read; the theorems `spells_cons_iff`, `after_cons_iff` and `after_nil_iff` read it off symbol
by symbol.
-/

set_option autoImplicit false
set_option relaxedAutoImplicit false

namespace LanguageTheory

namespace PositionTree

def positions : PositionTree → List Position
  | epsilon => []
  | leaf _ position => [position]
  | marker position => [position]
  | concat t u => t.positions ++ u.positions
  | union t u => t.positions ++ u.positions
  | star t => t.positions

/-- The tree matches the word of positions when every leaf is read as its own position. -/
def Spells : PositionTree → List Position → Prop
  | epsilon, word => word = []
  | leaf _ position, word => word = [position]
  | marker position, word => word = [position]
  | concat t u, word => ∃ left right, word = left ++ right ∧ t.Spells left ∧ u.Spells right
  | union t u, word => t.Spells word ∨ u.Spells word
  | star t, word => ∃ parts : List (List Position), parts.flatten = word ∧
      ∀ part ∈ parts, t.Spells part

/-- The word completes a match of which the position has just been read. -/
def After (p : Position) : PositionTree → List Position → Prop
  | epsilon, _ => False
  | leaf _ position, word => position = p ∧ word = []
  | marker position, word => position = p ∧ word = []
  | concat t u, word =>
    (∃ left right, word = left ++ right ∧ After p t left ∧ u.Spells right) ∨ After p u word
  | union t u, word => After p t word ∨ After p u word
  | star t, word => ∃ left right, word = left ++ right ∧ After p t left ∧ (star t).Spells right

theorem spells_star_nil (t : PositionTree) : (star t).Spells [] := ⟨[], rfl, by simp⟩

theorem spells_star_append {t : PositionTree} {left right : List Position} (once : t.Spells left)
    (more : (star t).Spells right) : (star t).Spells (left ++ right) := by
  obtain ⟨parts, rfl, each⟩ := more
  refine ⟨left :: parts, rfl, ?_⟩
  intro part mem
  rcases List.mem_cons.mp mem with rfl | mem
  · exact once
  · exact each part mem

private theorem spells_star_cons {t : PositionTree} {p : Position} {word : List Position} :
    (star t).Spells (p :: word) ↔
      ∃ left right, word = left ++ right ∧ t.Spells (p :: left) ∧ (star t).Spells right := by
  constructor
  · rintro ⟨parts, spelled, each⟩
    induction parts with
    | nil => cases spelled
    | cons part parts ih =>
      have later : ∀ part ∈ parts, t.Spells part := fun q mem => each q (List.mem_cons_of_mem _ mem)
      cases part with
      | nil => exact ih spelled later
      | cons q left =>
        obtain ⟨rfl, rfl⟩ := List.cons.inj spelled
        exact ⟨left, parts.flatten, rfl, each _ List.mem_cons_self, parts, rfl, later⟩
  · rintro ⟨left, right, rfl, once, more⟩
    exact spells_star_append once more

theorem spells_nil_iff {t : PositionTree} : t.Spells [] ↔ t.nullable = true := by
  induction t with
  | epsilon => simp [Spells, nullable]
  | leaf symbol position => simp [Spells, nullable]
  | marker position => simp [Spells, nullable]
  | concat t u iht ihu => simp [Spells, nullable, ← iht, ← ihu]
  | union t u iht ihu => simp [Spells, nullable, ← iht, ← ihu]
  | star t _ => exact ⟨fun _ => rfl, fun _ => spells_star_nil t⟩

section Members

variable {t : PositionTree} {p q : Position} {word : List Position}

theorem mem_positions_of_first (mem : p ∈ t.first) : p ∈ t.positions := by
  induction t with
  | epsilon => exact absurd mem (SortedSet.not_mem_empty p)
  | leaf symbol position => simpa [first, positions] using mem
  | marker position => simpa [first, positions] using mem
  | concat t u iht ihu =>
    rw [positions, List.mem_append]
    rw [first] at mem
    split at mem
    · exact (SortedSet.mem_union.mp mem).imp iht ihu
    · exact Or.inl (iht mem)
  | union t u iht ihu =>
    rw [positions, List.mem_append]
    exact (SortedSet.mem_union.mp mem).imp iht ihu
  | star t ih => exact ih mem

theorem mem_positions_of_follow (mem : q ∈ t.follow p) : q ∈ t.positions := by
  induction t with
  | epsilon => exact absurd mem (SortedSet.not_mem_empty q)
  | leaf symbol position => exact absurd mem (SortedSet.not_mem_empty q)
  | marker position => exact absurd mem (SortedSet.not_mem_empty q)
  | concat t u iht ihu =>
    have within (h : q ∈ (t.follow p).union (u.follow p)) : q ∈ (concat t u).positions := by
      rw [positions, List.mem_append]
      exact (SortedSet.mem_union.mp h).imp iht ihu
    simp only [follow] at mem
    split at mem
    · rcases SortedSet.mem_union.mp mem with h | h
      · exact within h
      · exact List.mem_append_right _ (mem_positions_of_first h)
    · exact within mem
  | union t u iht ihu =>
    rw [positions, List.mem_append]
    exact (SortedSet.mem_union.mp mem).imp iht ihu
  | star t ih =>
    rw [follow] at mem
    split at mem
    · rcases SortedSet.mem_union.mp mem with h | h
      · exact ih h
      · exact mem_positions_of_first h
    · exact ih mem

theorem mem_positions_of_after (after : t.After p word) : p ∈ t.positions := by
  induction t generalizing word with
  | epsilon => exact after.elim
  | leaf symbol position => simp [positions, after.1]
  | marker position => simp [positions, after.1]
  | concat t u iht ihu =>
    rw [positions, List.mem_append]
    rcases after with ⟨_, _, _, h, _⟩ | h
    · exact Or.inl (iht h)
    · exact Or.inr (ihu h)
  | union t u iht ihu =>
    rw [positions, List.mem_append]
    exact after.imp iht ihu
  | star t ih =>
    obtain ⟨_, _, _, h, _⟩ := after
    exact ih h

end Members

private theorem not_mem_right_of_nodup {t u : PositionTree}
    (linear : (t.positions ++ u.positions).Nodup) {p : Position} (mem : p ∈ t.positions) :
    p ∉ u.positions :=
  fun other => (List.nodup_append.mp linear).2.2 p mem p other rfl

theorem after_nil_iff {t : PositionTree} {p : Position} : t.After p [] ↔ p ∈ t.last := by
  induction t with
  | epsilon => simp [After, last]
  | leaf symbol position => simp [After, last, eq_comm]
  | marker position => simp [After, last, eq_comm]
  | concat t u iht ihu =>
    have split : (concat t u).After p [] ↔ p ∈ t.last ∧ u.nullable = true ∨ p ∈ u.last := by
      simp [After, iht, ihu, spells_nil_iff]
    rw [split, last]
    split
    · rename_i nullable
      simp [nullable]
    · rename_i nullable
      simp [nullable]
  | union t u iht ihu => simp [After, last, iht, ihu]
  | star t ih => simp [After, last, ih, spells_star_nil]

private theorem mem_first_concat {t u : PositionTree} {p : Position} :
    p ∈ (concat t u).first ↔ p ∈ t.first ∨ (t.nullable = true ∧ p ∈ u.first) := by
  rw [first]
  by_cases nullable : t.nullable = true
  · rw [if_pos nullable, SortedSet.mem_union, and_iff_right nullable]
  · rw [if_neg nullable, or_iff_left fun h => nullable h.1]

theorem spells_cons_iff {t : PositionTree} (linear : t.positions.Nodup) {p : Position}
    {word : List Position} : t.Spells (p :: word) ↔ p ∈ t.first ∧ t.After p word := by
  induction t generalizing word with
  | epsilon => simp [Spells, first]
  | leaf symbol position => simp [Spells, first, After, eq_comm]
  | marker position => simp [Spells, first, After, eq_comm]
  | concat t u iht ihu =>
    have apart := fun h => not_mem_right_of_nodup (t := t) (u := u) linear (p := p) h
    obtain ⟨t_linear, u_linear, _⟩ := List.nodup_append.mp linear
    rw [mem_first_concat]
    constructor
    · rintro ⟨left, right, spelled, ht, hu⟩
      cases left with
      | nil =>
        obtain rfl : p :: word = right := spelled
        obtain ⟨begins, after⟩ := (ihu u_linear).mp hu
        exact ⟨Or.inr ⟨spells_nil_iff.mp ht, begins⟩, Or.inr after⟩
      | cons q left =>
        obtain ⟨rfl, rfl⟩ := List.cons.inj spelled
        obtain ⟨begins, after⟩ := (iht t_linear).mp ht
        exact ⟨Or.inl begins, Or.inl ⟨left, right, rfl, after, hu⟩⟩
    · rintro ⟨begins | ⟨nullable, begins⟩, ⟨left, right, rfl, after, hu⟩ | after⟩
      · exact ⟨p :: left, right, rfl, (iht t_linear).mpr ⟨begins, after⟩, hu⟩
      · exact absurd (mem_positions_of_after after) (apart (mem_positions_of_first begins))
      · exact absurd (mem_positions_of_first begins) (apart (mem_positions_of_after after))
      · exact ⟨[], p :: word, rfl, spells_nil_iff.mpr nullable,
          (ihu u_linear).mpr ⟨begins, after⟩⟩
  | union t u iht ihu =>
    have apart := fun h => not_mem_right_of_nodup (t := t) (u := u) linear (p := p) h
    obtain ⟨t_linear, u_linear, _⟩ := List.nodup_append.mp linear
    simp only [Spells, iht t_linear, ihu u_linear, first, SortedSet.mem_union, After]
    constructor
    · rintro (⟨begins, after⟩ | ⟨begins, after⟩)
      · exact ⟨Or.inl begins, Or.inl after⟩
      · exact ⟨Or.inr begins, Or.inr after⟩
    · rintro ⟨begins | begins, after | after⟩
      · exact Or.inl ⟨begins, after⟩
      · exact absurd (mem_positions_of_after after) (apart (mem_positions_of_first begins))
      · exact absurd (mem_positions_of_first begins) (apart (mem_positions_of_after after))
      · exact Or.inr ⟨begins, after⟩
  | star t ih =>
    rw [spells_star_cons]
    constructor
    · rintro ⟨left, right, rfl, once, more⟩
      obtain ⟨begins, after⟩ := (ih linear).mp once
      exact ⟨begins, left, right, rfl, after, more⟩
    · rintro ⟨begins, left, right, rfl, after, more⟩
      exact ⟨left, right, rfl, (ih linear).mpr ⟨begins, after⟩, more⟩

theorem mem_follow_concat {t u : PositionTree} {p q : Position} :
    q ∈ (concat t u).follow p ↔
      q ∈ t.follow p ∨ q ∈ u.follow p ∨ p ∈ t.last ∧ q ∈ u.first := by
  simp only [follow]
  split
  · rename_i ends
    simp [ends, or_assoc]
  · rename_i ends
    simp [ends]

theorem mem_follow_star {t : PositionTree} {p q : Position} :
    q ∈ (star t).follow p ↔ q ∈ t.follow p ∨ p ∈ t.last ∧ q ∈ t.first := by
  rw [follow]
  split
  · rename_i ends
    simp [ends]
  · rename_i ends
    simp [ends]

theorem after_cons_iff {t : PositionTree} (linear : t.positions.Nodup) {p q : Position}
    {word : List Position} : t.After p (q :: word) ↔ q ∈ t.follow p ∧ t.After q word := by
  induction t generalizing word with
  | epsilon => simp [After]
  | leaf symbol position => simp [After, follow]
  | marker position => simp [After, follow]
  | concat t u iht ihu =>
    have apart := fun h => not_mem_right_of_nodup (t := t) (u := u) linear (p := q) h
    obtain ⟨t_linear, u_linear, _⟩ := List.nodup_append.mp linear
    rw [mem_follow_concat]
    constructor
    · rintro (⟨left, right, split, ht, hu⟩ | hu)
      · cases left with
        | nil =>
          obtain rfl : q :: word = right := split
          obtain ⟨begins, after⟩ := (spells_cons_iff u_linear).mp hu
          exact ⟨Or.inr (Or.inr ⟨after_nil_iff.mp ht, begins⟩), Or.inr after⟩
        | cons r left =>
          obtain ⟨rfl, rfl⟩ := List.cons.inj split
          obtain ⟨follows, after⟩ := (iht t_linear).mp ht
          exact ⟨Or.inl follows, Or.inl ⟨left, right, rfl, after, hu⟩⟩
      · obtain ⟨follows, after⟩ := (ihu u_linear).mp hu
        exact ⟨Or.inr (Or.inl follows), Or.inr after⟩
    · rintro ⟨follows | follows | ⟨ends, begins⟩, ⟨left, right, rfl, after, hu⟩ | after⟩
      · exact Or.inl ⟨q :: left, right, rfl, (iht t_linear).mpr ⟨follows, after⟩, hu⟩
      · exact absurd (mem_positions_of_after after) (apart (mem_positions_of_follow follows))
      · exact absurd (mem_positions_of_follow follows) (apart (mem_positions_of_after after))
      · exact Or.inr ((ihu u_linear).mpr ⟨follows, after⟩)
      · exact absurd (mem_positions_of_first begins) (apart (mem_positions_of_after after))
      · refine Or.inl ⟨[], q :: word, rfl, after_nil_iff.mpr ends, ?_⟩
        exact (spells_cons_iff u_linear).mpr ⟨begins, after⟩
  | union t u iht ihu =>
    have apart := fun h => not_mem_right_of_nodup (t := t) (u := u) linear (p := q) h
    obtain ⟨t_linear, u_linear, _⟩ := List.nodup_append.mp linear
    simp only [After, iht t_linear, ihu u_linear, follow, SortedSet.mem_union]
    constructor
    · rintro (⟨follows, after⟩ | ⟨follows, after⟩)
      · exact ⟨Or.inl follows, Or.inl after⟩
      · exact ⟨Or.inr follows, Or.inr after⟩
    · rintro ⟨follows | follows, after | after⟩
      · exact Or.inl ⟨follows, after⟩
      · exact absurd (mem_positions_of_after after) (apart (mem_positions_of_follow follows))
      · exact absurd (mem_positions_of_follow follows) (apart (mem_positions_of_after after))
      · exact Or.inr ⟨follows, after⟩
  | star t ih =>
    rw [mem_follow_star]
    constructor
    · rintro ⟨left, right, split, ht, more⟩
      cases left with
      | nil =>
        obtain rfl : q :: word = right := split
        obtain ⟨rest, others, rfl, once, again⟩ := spells_star_cons.mp more
        obtain ⟨begins, after⟩ := (spells_cons_iff (t := t) linear).mp once
        exact ⟨Or.inr ⟨after_nil_iff.mp ht, begins⟩, rest, others, rfl, after, again⟩
      | cons r left =>
        obtain ⟨rfl, rfl⟩ := List.cons.inj split
        obtain ⟨follows, after⟩ := (ih linear).mp ht
        exact ⟨Or.inl follows, left, right, rfl, after, more⟩
    · rintro ⟨follows | ⟨ends, begins⟩, left, right, rfl, after, more⟩
      · exact ⟨q :: left, right, rfl, (ih linear).mpr ⟨follows, after⟩, more⟩
      · refine ⟨[], q :: (left ++ right), rfl, after_nil_iff.mpr ends, ?_⟩
        exact spells_star_append ((spells_cons_iff (t := t) linear).mpr ⟨begins, after⟩) more

theorem exists_spells (t : PositionTree) : ∃ word, t.Spells word := by
  induction t with
  | epsilon => exact ⟨[], rfl⟩
  | leaf symbol position => exact ⟨[position], rfl⟩
  | marker position => exact ⟨[position], rfl⟩
  | concat t u iht ihu =>
    obtain ⟨left, ht⟩ := iht
    obtain ⟨right, hu⟩ := ihu
    exact ⟨left ++ right, left, right, rfl, ht, hu⟩
  | union t u iht _ =>
    obtain ⟨left, ht⟩ := iht
    exact ⟨left, Or.inl ht⟩
  | star t _ => exact ⟨[], spells_star_nil t⟩

theorem exists_after {t : PositionTree} {p : Position} (mem : p ∈ t.positions) :
    ∃ word, t.After p word := by
  induction t with
  | epsilon => exact absurd mem List.not_mem_nil
  | leaf symbol position => exact ⟨[], (List.mem_singleton.mp mem).symm, rfl⟩
  | marker position => exact ⟨[], (List.mem_singleton.mp mem).symm, rfl⟩
  | concat t u iht ihu =>
    rcases List.mem_append.mp mem with mem | mem
    · obtain ⟨left, after⟩ := iht mem
      obtain ⟨right, spelled⟩ := u.exists_spells
      exact ⟨left ++ right, Or.inl ⟨left, right, rfl, after, spelled⟩⟩
    · obtain ⟨word, after⟩ := ihu mem
      exact ⟨word, Or.inr after⟩
  | union t u iht ihu =>
    rcases List.mem_append.mp mem with mem | mem
    · exact (iht mem).imp fun _ after => Or.inl after
    · exact (ihu mem).imp fun _ after => Or.inr after
  | star t ih =>
    obtain ⟨word, after⟩ := ih mem
    exact ⟨word, word, [], (List.append_nil word).symm, after, spells_star_nil t⟩

private theorem spells_mem {t : PositionTree} {word : List Position} (spelled : t.Spells word) :
    ∀ p ∈ word, p ∈ t.positions := by
  induction t generalizing word with
  | epsilon =>
    obtain rfl : word = [] := spelled
    simp
  | leaf symbol position =>
    obtain rfl : word = [position] := spelled
    simp [positions]
  | marker position =>
    obtain rfl : word = [position] := spelled
    simp [positions]
  | concat t u iht ihu =>
    obtain ⟨left, right, rfl, ht, hu⟩ := spelled
    intro p mem
    rw [positions, List.mem_append]
    exact (List.mem_append.mp mem).imp (iht ht p) (ihu hu p)
  | union t u iht ihu =>
    intro p mem
    rw [positions, List.mem_append]
    exact spelled.imp (fun h => iht h p mem) fun h => ihu h p mem
  | star t ih =>
    obtain ⟨parts, rfl, each⟩ := spelled
    intro p mem
    obtain ⟨part, member, inside⟩ := List.mem_flatten.mp mem
    exact ih (each part member) p inside

theorem after_mem {t : PositionTree} {p : Position} {word : List Position}
    (after : t.After p word) : ∀ q ∈ word, q ∈ t.positions := by
  induction t generalizing word with
  | epsilon => exact after.elim
  | leaf symbol position => simp [after.2]
  | marker position => simp [after.2]
  | concat t u iht ihu =>
    intro q mem
    rw [positions, List.mem_append]
    rcases after with ⟨left, right, rfl, after, spelled⟩ | after
    · exact (List.mem_append.mp mem).imp (iht after q) (spells_mem spelled q)
    · exact Or.inr (ihu after q mem)
  | union t u iht ihu =>
    intro q mem
    rw [positions, List.mem_append]
    exact after.imp (fun h => iht h q mem) fun h => ihu h q mem
  | star t ih =>
    obtain ⟨left, right, rfl, after, spelled⟩ := after
    intro q mem
    rcases List.mem_append.mp mem with mem | mem
    · exact ih after q mem
    · exact spells_mem spelled q mem

end PositionTree

end LanguageTheory

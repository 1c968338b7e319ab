import LanguageTheory.Proofs.Regex.Compilation
import LanguageTheory.Regex.Reader

/-!
What the position sets of a numbered expression mean. In the words of positions that a node spells,
the members of `first` are those that stand in front, the members of `last` those at the end, and
one position is in `follow` of another if some word has it right behind the other. `follow` gathers
what the concatenations and repetitions among the nodes join; that these miss no pair, and join none
too many, is seen by going along a word: `After` says of each place in it what may come behind.
-/

set_option autoImplicit false
set_option relaxedAutoImplicit false

namespace LanguageTheory

namespace PositionTree

section Words

variable {t : PositionTree} {p q : Position} {before rest : List Position}

private theorem exists_spells_of_after (after : t.After p rest) :
    ∃ before, t.Spells (before ++ p :: rest) := by
  induction t generalizing rest with
  | epsilon => exact after.elim
  | leaf symbol position =>
    obtain ⟨rfl, rfl⟩ := after
    exact ⟨[], rfl⟩
  | marker position =>
    obtain ⟨rfl, rfl⟩ := after
    exact ⟨[], rfl⟩
  | concat t u iht ihu =>
    rcases after with ⟨left, right, rfl, after, spelled⟩ | after
    · obtain ⟨before, begun⟩ := iht after
      exact ⟨before, before ++ p :: left, right, by simp, begun, spelled⟩
    · obtain ⟨before, ended⟩ := ihu after
      obtain ⟨left, begun⟩ := t.exists_spells
      exact ⟨left ++ before, left, before ++ p :: rest, List.append_assoc _ _ _, begun, ended⟩
  | union t u iht ihu =>
    rcases after with after | after
    · exact (iht after).imp fun _ spelled => Or.inl spelled
    · exact (ihu after).imp fun _ spelled => Or.inr spelled
  | star t ih =>
    obtain ⟨left, right, rfl, after, more⟩ := after
    obtain ⟨before, once⟩ := ih after
    have whole := spells_star_append once more
    rw [List.append_assoc, List.cons_append] at whole
    exact ⟨before, whole⟩

variable (linear : t.positions.Nodup)
include linear

private theorem after_of_after_append (after : t.After q (before ++ p :: rest)) :
    t.After p rest := by
  induction before generalizing q with
  | nil => exact ((after_cons_iff linear).mp after).2
  | cons r before ih => exact ih ((after_cons_iff linear).mp after).2

private theorem after_iff_exists_spells :
    t.After p rest ↔ ∃ before, t.Spells (before ++ p :: rest) := by
  refine ⟨exists_spells_of_after, ?_⟩
  rintro ⟨before, spelled⟩
  cases before with
  | nil => exact ((spells_cons_iff linear).mp spelled).2
  | cons q before => exact after_of_after_append linear ((spells_cons_iff linear).mp spelled).2

private theorem mem_first_iff : p ∈ t.first ↔ ∃ word, t.Spells (p :: word) := by
  constructor
  · intro begins
    obtain ⟨word, after⟩ := exists_after (mem_positions_of_first begins)
    exact ⟨word, (spells_cons_iff linear).mpr ⟨begins, after⟩⟩
  · rintro ⟨word, spelled⟩
    exact ((spells_cons_iff linear).mp spelled).1

private theorem mem_last_iff : p ∈ t.last ↔ ∃ word, t.Spells (word ++ [p]) :=
  after_nil_iff.symm.trans (after_iff_exists_spells linear)

private theorem mem_follow_iff : q ∈ t.follow p ↔ ∃ word, t.Spells word ∧ [p, q] <:+: word := by
  constructor
  · intro follows
    obtain ⟨word, after⟩ := exists_after (mem_positions_of_follow follows)
    obtain ⟨before, spelled⟩ :=
      exists_spells_of_after ((after_cons_iff linear).mpr ⟨follows, after⟩)
    exact ⟨_, spelled, before, word, by simp⟩
  · rintro ⟨_, spelled, before, word, rfl⟩
    rw [List.append_assoc, List.cons_append, List.singleton_append] at spelled
    have after : t.After p (q :: word) := (after_iff_exists_spells linear).mpr ⟨before, spelled⟩
    exact ((after_cons_iff linear).mp after).1

end Words

section Nodes

variable {t : PositionTree} {start : Nat} {node : Nat × PositionTree} {p q : Position}

private theorem forall_mem_nodes {motive : PositionTree → Prop}
    (concat : ∀ t u, motive (.concat t u) → motive t ∧ motive u)
    (union : ∀ t u, motive (.union t u) → motive t ∧ motive u)
    (star : ∀ t, motive (.star t) → motive t) (whole : motive t) :
    ∀ node ∈ t.nodes start, motive node.2 := by
  induction t generalizing start with
  | epsilon => exact List.forall_mem_singleton.mpr whole
  | leaf symbol position => exact List.forall_mem_singleton.mpr whole
  | marker position => exact List.forall_mem_singleton.mpr whole
  | concat t u iht ihu =>
    obtain ⟨left, right⟩ := concat t u whole
    exact List.forall_mem_append.mpr
      ⟨List.forall_mem_append.mpr ⟨iht left, ihu right⟩, List.forall_mem_singleton.mpr whole⟩
  | union t u iht ihu =>
    obtain ⟨left, right⟩ := union t u whole
    exact List.forall_mem_append.mpr
      ⟨List.forall_mem_append.mpr ⟨iht left, ihu right⟩, List.forall_mem_singleton.mpr whole⟩
  | star t ih =>
    exact List.forall_mem_append.mpr ⟨ih (star t whole), List.forall_mem_singleton.mpr whole⟩

private theorem nodup_positions_of_mem_nodes (linear : t.positions.Nodup)
    (mem : node ∈ t.nodes start) :
    node.2.positions.Nodup := by
  refine forall_mem_nodes (motive := fun t => t.positions.Nodup) ?_ ?_ ?_ linear node mem
  · exact fun t u whole => (List.nodup_append.mp whole).imp_right And.left
  · exact fun t u whole => (List.nodup_append.mp whole).imp_right And.left
  · exact fun t whole => whole

/-- The node itself lets the second position come right after the first. -/
def Joins (p q : Position) : PositionTree → Prop
  | concat t u => p ∈ t.last ∧ q ∈ u.first
  | star t => p ∈ t.last ∧ q ∈ t.first
  | _ => False

private theorem mem_follow_iff_joins (start : Nat) :
    q ∈ t.follow p ↔ ∃ node ∈ t.nodes start, node.2.Joins p q := by
  induction t generalizing start with
  | epsilon => simp [follow, nodes, Joins]
  | leaf symbol position => simp [follow, nodes, Joins]
  | marker position => simp [follow, nodes, Joins]
  | concat t u iht ihu =>
    rw [mem_follow_concat, iht start, ihu (start + t.size)]
    simp [nodes, Joins, or_and_right, exists_or]
  | union t u iht ihu =>
    rw [follow, SortedSet.mem_union, iht start, ihu (start + t.size)]
    simp [nodes, Joins, or_and_right, exists_or]
  | star t ih =>
    rw [mem_follow_star, ih start]
    simp [nodes, Joins, or_and_right, exists_or]

end Nodes

end PositionTree

namespace Regex

private theorem nullable_numbered_iff {e : Regex} (start : Position) :
    (e.numbered start).nullable = true ↔ e.Matches [] := by
  induction e generalizing start with
  | epsilon => simp [numbered, PositionTree.nullable]
  | literal symbol => simp [numbered, PositionTree.nullable]
  | concat first second ihf ihs => simp [numbered, PositionTree.nullable, ihf, ihs]
  | union first second ihf ihs => simp [numbered, PositionTree.nullable, ihf, ihs]
  | star inner _ => exact ⟨fun _ => .starNil, fun _ => rfl⟩

private theorem exists_numbered_of_mem_nodes {r : Regex} {start : Position} {index : Nat}
    {node : Nat × PositionTree} (mem : node ∈ (r.numbered start).nodes index) :
    ∃ e start, node.2 = numbered start e := by
  refine PositionTree.forall_mem_nodes (motive := fun t => ∃ e start, t = numbered start e)
    ?_ ?_ ?_ ⟨r, start, rfl⟩ node mem
  · rintro t u ⟨e, start, same⟩
    cases e with
    | concat first second =>
      obtain ⟨rfl, rfl⟩ := PositionTree.concat.inj same
      exact ⟨⟨first, start, rfl⟩, second, start + first.width, rfl⟩
    | _ => cases same
  · rintro t u ⟨e, start, same⟩
    cases e with
    | union first second =>
      obtain ⟨rfl, rfl⟩ := PositionTree.union.inj same
      exact ⟨⟨first, start, rfl⟩, second, start + first.width, rfl⟩
    | _ => cases same
  · rintro t ⟨e, start, same⟩
    cases e with
    | star inner =>
      obtain rfl := PositionTree.star.inj same
      exact ⟨inner, start, rfl⟩
    | _ => cases same

private theorem width_eq_length (r : Regex) : r.width = r.literals.length := by
  rw [← r.literals_of_leaves 1, List.length_map, ← List.length_map Prod.fst, positions_of_leaves,
    positions_numbered, List.length_range']

private theorem leaves_marked_eq (r : Regex) :
    r.marked.leaves = (List.range' 1 r.literals.length).zip r.literals := by
  apply List.zip_of_prod
  · rw [leaves_marked, positions_of_leaves, positions_numbered, width_eq_length]
  · rw [leaves_marked, literals_of_leaves]

/-- The literals are numbered from left to right, and the end marker behind them. At each node of
the tree, the end marker and the root included, the three properties are those of the words of
positions that the node spells. What follows a position is what the nodes join to it, and that is
what stands right behind it in some word of the whole expression with the end marker behind it. -/
theorem position_sets_exact (r : Regex) :
    (r.marked.leaves = (List.range' 1 r.literals.length).zip r.literals ∧
      r.endMarker = r.literals.length + 1) ∧
    (∀ node ∈ (r.numbered 1).nodes 0, ∃ e start, node.2 = numbered start e ∧
      (node.2.nullable = true ↔ e.Matches [])) ∧
    (∀ node ∈ r.marked.nodes 0, (node.2.nullable = true ↔ node.2.Spells []) ∧
      ∀ p, (p ∈ node.2.first ↔ ∃ word, node.2.Spells (p :: word)) ∧
        (p ∈ node.2.last ↔ ∃ word, node.2.Spells (word ++ [p]))) ∧
    ∀ p q, (q ∈ r.marked.follow p ↔ ∃ node ∈ r.marked.nodes 0, node.2.Joins p q) ∧
      (q ∈ r.marked.follow p ↔
        ∃ word, (r.numbered 1).Spells word ∧ [p, q] <:+: word ++ [r.endMarker]) := by
  have linear := r.nodup_positions_marked
  refine ⟨⟨r.leaves_marked_eq, by rw [endMarker, width_eq_length]⟩, fun node mem => ?_,
    fun node mem => ?_, fun p q => ⟨PositionTree.mem_follow_iff_joins 0, ?_⟩⟩
  · obtain ⟨e, start, same⟩ := exists_numbered_of_mem_nodes mem
    exact ⟨e, start, same, by rw [same, nullable_numbered_iff]⟩
  · have apart := PositionTree.nodup_positions_of_mem_nodes linear mem
    exact ⟨PositionTree.spells_nil_iff.symm, fun p =>
      ⟨PositionTree.mem_first_iff apart, PositionTree.mem_last_iff apart⟩⟩
  · rw [PositionTree.mem_follow_iff linear]
    constructor
    · rintro ⟨_, spelled, behind⟩
      obtain ⟨word, inner, rfl⟩ := spells_marked_iff.mp spelled
      exact ⟨word, inner, behind⟩
    · rintro ⟨word, inner, behind⟩
      exact ⟨_, spells_marked_iff.mpr ⟨word, inner, rfl⟩, behind⟩

/-- What follows each position of `(a|b)*abb` and its end marker. -/
example : ((parse "(a|b)*abb").toOption.map fun r =>
    (List.range' 1 r.endMarker).map fun p => (r.marked.follow p).toList) =
      some [[1, 2, 3], [1, 2, 3], [4], [5], [6], []] := rfl

end Regex

end LanguageTheory

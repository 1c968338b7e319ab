import Mathlib.Data.Finset.Prod
import LanguageTheory.Automaton.BooleanOperations
import LanguageTheory.Proofs.Automaton.Minimization

/-!
What every operation on automata keeps, whatever the names of the states are: the entry is a state,
transitions join states, and labels belong to the alphabet.
-/

set_option autoImplicit false
set_option relaxedAutoImplicit false

namespace LanguageTheory.Automaton

variable {A B : Automaton}

/-- The parts fit together, except that nothing is said about which states are marked as entry. -/
structure Linked (A : Automaton) : Prop where
  entry_mem : A.entry ∈ A.states.keys
  source_mem : ∀ t ∈ A.transitions, t.source ∈ A.states.keys
  target_mem : ∀ t ∈ A.transitions, t.target ∈ A.states.keys
  label_mem : ∀ t ∈ A.transitions, t.label = Symbol.epsilon ∨ t.label ∈ A.alphabet

theorem WellFormed.linked (fits : A.WellFormed) : A.Linked :=
  ⟨fits.entry_mem, fits.source_mem, fits.target_mem, fits.label_mem⟩

section Union

private theorem mem_keys_withSuffix {suffix : String} {name : StateName} :
    name ∈ (A.withSuffix suffix).states.keys ↔ ∃ old ∈ A.states.keys, old ++ suffix = name := by
  rw [withSuffix, OrderedTable.mem_keys_ofList]
  simp [OrderedTable.keys]

theorem linked_withSuffix (linked : A.Linked) (suffix : String) : (A.withSuffix suffix).Linked where
  entry_mem := mem_keys_withSuffix.mpr ⟨_, linked.entry_mem, rfl⟩
  source_mem t mem := by
    obtain ⟨u, hu, rfl⟩ := OrderedSet.mem_map.mp mem
    exact mem_keys_withSuffix.mpr ⟨_, linked.source_mem u hu, rfl⟩
  target_mem t mem := by
    obtain ⟨u, hu, rfl⟩ := OrderedSet.mem_map.mp mem
    exact mem_keys_withSuffix.mpr ⟨_, linked.target_mem u hu, rfl⟩
  label_mem t mem := by
    obtain ⟨u, hu, rfl⟩ := OrderedSet.mem_map.mp mem
    exact linked.label_mem u hu

private theorem mem_keys_join {stem : String} {name : StateName} :
    name ∈ (A.join B stem).states.keys ↔
      name = (A.join B stem).entry ∨ name ∈ A.states.keys ∨ name ∈ B.states.keys := by
  rw [join, OrderedTable.mem_keys_ofList]
  simp [inner, OrderedTable.keys]

theorem mem_transitions_join {stem : String} {t : Transition} :
    t ∈ (A.join B stem).transitions ↔
      t = .plain (A.join B stem).entry Symbol.epsilon A.entry ∨
      t = .plain (A.join B stem).entry Symbol.epsilon B.entry ∨
      t ∈ A.transitions ∨ t ∈ B.transitions := by
  simp [join]

theorem linked_join (left : A.Linked) (right : B.Linked) (stem : String) :
    (A.join B stem).Linked where
  entry_mem := mem_keys_join.mpr (Or.inl rfl)
  source_mem t mem := by
    rw [mem_keys_join]
    rcases mem_transitions_join.mp mem with rfl | rfl | old | old
    · exact Or.inl rfl
    · exact Or.inl rfl
    · exact Or.inr (Or.inl (left.source_mem t old))
    · exact Or.inr (Or.inr (right.source_mem t old))
  target_mem t mem := by
    rw [mem_keys_join]
    rcases mem_transitions_join.mp mem with rfl | rfl | old | old
    · exact Or.inr (Or.inl left.entry_mem)
    · exact Or.inr (Or.inr right.entry_mem)
    · exact Or.inr (Or.inl (left.target_mem t old))
    · exact Or.inr (Or.inr (right.target_mem t old))
  label_mem t mem := by
    have known (label : Symbol) : label ∈ (A.join B stem).alphabet ↔
        label ∈ A.alphabet ∨ label ∈ B.alphabet := OrderedSet.mem_union
    rw [known]
    rcases mem_transitions_join.mp mem with rfl | rfl | old | old
    · exact Or.inl rfl
    · exact Or.inl rfl
    · exact (left.label_mem t old).imp_right Or.inl
    · exact (right.label_mem t old).imp_right Or.inr

theorem linked_union (left : A.Linked) (right : B.Linked) {rename : Bool} {stem : String}
    {C : Automaton} (result : A.union B rename stem = .ok C) : C.Linked := by
  unfold union at result
  split at result
  · obtain rfl := Except.ok.inj result
    exact linked_join left right stem
  · split at result
    · obtain rfl := Except.ok.inj result
      exact linked_join (linked_withSuffix left "_1") (linked_withSuffix right "_2") stem
    · cases result

end Union

section Intersection

private theorem mem_commonMoves {pair next : StateName × StateName} {label : Symbol} :
    (label, next) ∈ A.commonMoves B pair ↔ A.Moves pair.1 label next.1 ∧
      B.Moves pair.2 label next.2 := by
  obtain ⟨left, right⟩ := next
  simp only [commonMoves, transitionsFrom, List.mem_flatMap, List.mem_map, List.mem_filter,
    OrderedSet.mem_toList, decide_eq_true_eq, Prod.mk.injEq, Moves]
  constructor
  · rintro ⟨s, ⟨hs, source⟩, t, ⟨⟨ht, source'⟩, label'⟩, rfl, rfl, rfl⟩
    exact ⟨⟨s, hs, source, rfl, rfl⟩, t, ht, source', label'.symm, rfl⟩
  · rintro ⟨⟨s, hs, source, rfl, rfl⟩, t, ht, source', label', rfl⟩
    exact ⟨s, ⟨hs, source⟩, t, ⟨⟨ht, source'⟩, label'.symm⟩, rfl, rfl, rfl⟩

def CommonEdge (A B : Automaton) (pair next : StateName × StateName) : Prop :=
  ∃ label, A.Moves pair.1 label next.1 ∧ B.Moves pair.2 label next.2

theorem Linked.moves_mem (linked : A.Linked) {source target : StateName} {label : Symbol}
    (move : A.Moves source label target) : target ∈ A.states.keys := by
  obtain ⟨t, mem, rfl, _, rfl⟩ := move
  exact linked.target_mem t mem

theorem mem_commonPairs_iff (left : A.Linked) (right : B.Linked) {pair : StateName × StateName} :
    pair ∈ A.commonPairs B ↔ Relation.ReflTransGen (A.CommonEdge B) (A.entry, B.entry) pair := by
  have edges : (fun pair next => next ∈ (A.commonMoves B pair).map Prod.snd) = A.CommonEdge B := by
    funext pair next
    simp [mem_commonMoves, CommonEdge]
  have few : (A.stateNames.toFinset ×ˢ B.stateNames.toFinset).card ≤
      A.states.size * B.states.size + 1 := by
    rw [Finset.card_product]
    exact (Nat.mul_le_mul A.card_stateNames_le B.card_stateNames_le).trans (Nat.le_succ _)
  rw [commonPairs, Discovery.mem_reached_iff _ few, edges]
  · simp
  · intro start mem
    rw [List.mem_singleton.mp mem, Finset.mem_product, List.mem_toFinset, List.mem_toFinset]
    exact ⟨left.entry_mem, right.entry_mem⟩
  · intro pair _ next edge
    obtain ⟨⟨label, _⟩, move, rfl⟩ := List.mem_map.mp edge
    obtain ⟨first, second⟩ := mem_commonMoves.mp move
    rw [Finset.mem_product, List.mem_toFinset, List.mem_toFinset]
    exact ⟨left.moves_mem first, right.moves_mem second⟩

theorem pairs_namePairs (taken : List StateName) (pairs : List (StateName × StateName)) :
    (namePairs taken pairs).map Prod.fst = pairs := by
  induction pairs generalizing taken with
  | nil => rfl
  | cons pair pairs ih => rw [namePairs, List.map_cons, ih]

theorem exists_pairName {pairs : List (StateName × StateName)} {pair : StateName × StateName}
    (mem : pair ∈ pairs) : ∃ name, OrderedTable.lookUp pair (namePairs [] pairs) = some name := by
  rw [← Option.isSome_iff_exists, OrderedTable.lookUp_isSome_iff, pairs_namePairs]
  exact mem

theorem mem_keys_product {name : StateName} : name ∈ (A.product B).states.keys ↔
    ∃ pair, (pair, name) ∈ namePairs [] (A.commonPairs B) := by
  simp [product]

private theorem pairName_mem_product {pair : StateName × StateName} (mem : pair ∈ A.commonPairs B) :
    (OrderedTable.lookUp pair (namePairs [] (A.commonPairs B))).getD "" ∈
      (A.product B).states.keys := by
  obtain ⟨name, found⟩ := exists_pairName mem
  rw [found, Option.getD_some, mem_keys_product]
  exact ⟨pair, OrderedTable.mem_of_lookUp found⟩

theorem mem_transitions_product {t : Transition} : t ∈ (A.product B).transitions ↔
    ∃ pair name, (pair, name) ∈ namePairs [] (A.commonPairs B) ∧ ∃ label next,
      (A.Moves pair.1 label next.1 ∧ B.Moves pair.2 label next.2) ∧
        .plain name label
          ((OrderedTable.lookUp next (namePairs [] (A.commonPairs B))).getD "") = t := by
  simp [product, mem_commonMoves]

theorem linked_product (left : A.Linked) (right : B.Linked) : (A.product B).Linked where
  entry_mem := pairName_mem_product ((mem_commonPairs_iff left right).mpr .refl)
  source_mem t mem := by
    obtain ⟨pair, name, named, _, _, _, rfl⟩ := mem_transitions_product.mp mem
    exact mem_keys_product.mpr ⟨pair, named⟩
  target_mem t mem := by
    obtain ⟨pair, name, named, label, next, moves, rfl⟩ := mem_transitions_product.mp mem
    have met : pair ∈ A.commonPairs B :=
      pairs_namePairs [] (A.commonPairs B) ▸ List.mem_map_of_mem named
    apply pairName_mem_product
    exact (mem_commonPairs_iff left right).mpr
      (((mem_commonPairs_iff left right).mp met).tail ⟨label, moves⟩)
  label_mem t mem := by
    obtain ⟨_, _, _, _, _, ⟨⟨u, hu, _, rfl, _⟩, _⟩, rfl⟩ := mem_transitions_product.mp mem
    exact (left.label_mem u hu).imp_right fun known => OrderedSet.mem_union.mpr (Or.inl known)

theorem intersect_eq_ok_iff {C : Automaton} :
    A.intersect B = .ok C ↔ A.Deterministic ∧ B.Deterministic ∧ C = A.product B :=
  requireDeterministic_bind_eq_ok_iff.trans
    (and_congr_right fun _ => requireDeterministic_return_eq_ok_iff)

theorem linked_intersect (left : A.Linked) (right : B.Linked) {C : Automaton}
    (result : A.intersect B = .ok C) : C.Linked := by
  obtain ⟨_, _, rfl⟩ := intersect_eq_ok_iff.mp result
  exact linked_product left right

end Intersection

section Complement

theorem mem_missingMoves {name : StateName} {symbol : Symbol} : (name, symbol) ∈ A.missingMoves ↔
    name ∈ A.stateNames ∧ symbol ∈ A.alphabet.visible ∧ ∀ target, ¬ A.Moves name symbol target := by
  simp only [missingMoves, transitionsFrom, List.mem_flatMap, List.mem_map, List.mem_filter,
    OrderedSet.mem_toList, Bool.not_eq_true', List.any_eq_false, decide_eq_true_eq, Prod.mk.injEq,
    Moves]
  constructor
  · rintro ⟨_, known, _, ⟨visible, missing⟩, rfl, rfl⟩
    refine ⟨known, visible, ?_⟩
    rintro target ⟨t, mem, source, label, _⟩
    exact missing t ⟨mem, source⟩ label
  · rintro ⟨known, visible, missing⟩
    refine ⟨name, known, symbol, ⟨visible, ?_⟩, rfl, rfl⟩
    rintro t ⟨mem, source⟩ label
    exact missing t.target ⟨t, mem, source, label, rfl⟩

theorem linked_complete (linked : A.Linked) : A.complete.Linked := by
  unfold complete
  split
  · exact linked
  · have old (name : StateName) (mem : name ∈ A.states.keys) :
        name ∈ (A.states.insert A.sinkName ⟨false, false⟩).keys :=
      OrderedTable.mem_keys_insert.mpr (Or.inl mem)
    have sink : A.sinkName ∈ (A.states.insert A.sinkName ⟨false, false⟩).keys :=
      OrderedTable.mem_keys_insert.mpr (Or.inr rfl)
    have added (t : Transition) (mem : t ∈ (A.missingMoves.map fun move =>
          Transition.plain move.1 move.2 A.sinkName) ++ A.alphabet.visible.toList.map fun symbol =>
            Transition.plain A.sinkName symbol A.sinkName) :
        (t.source ∈ A.states.keys ∨ t.source = A.sinkName) ∧ t.target = A.sinkName ∧
          t.label ∈ A.alphabet := by
      rcases List.mem_append.mp mem with mem | mem
      · obtain ⟨⟨name, symbol⟩, missing, rfl⟩ := List.mem_map.mp mem
        obtain ⟨known, visible, _⟩ := mem_missingMoves.mp missing
        exact ⟨Or.inl known, rfl, (OrderedSet.mem_filter.mp visible).1⟩
      · obtain ⟨symbol, visible, rfl⟩ := List.mem_map.mp mem
        exact ⟨Or.inr rfl, rfl, (OrderedSet.mem_filter.mp visible).1⟩
    exact {
      entry_mem := old _ linked.entry_mem
      source_mem := fun t mem => by
        rcases OrderedSet.mem_insertMany.mp mem with mem | mem
        · exact old _ (linked.source_mem t mem)
        · exact OrderedTable.mem_keys_insert.mpr (added t mem).1
      target_mem := fun t mem => by
        rcases OrderedSet.mem_insertMany.mp mem with mem | mem
        · exact old _ (linked.target_mem t mem)
        · exact (added t mem).2.1 ▸ sink
      label_mem := fun t mem => by
        rcases OrderedSet.mem_insertMany.mp mem with mem | mem
        · exact linked.label_mem t mem
        · exact Or.inr (added t mem).2.2 }

theorem linked_flipExits (linked : A.Linked) : A.flipExits.Linked := by
  have keys : A.flipExits.states.keys = A.states.keys := OrderedTable.keys_mapValues _ _
  exact {
    entry_mem := keys ▸ linked.entry_mem
    source_mem := fun t mem => keys ▸ linked.source_mem t mem
    target_mem := fun t mem => keys ▸ linked.target_mem t mem
    label_mem := linked.label_mem }

theorem complement_eq_ok_iff {C : Automaton} :
    A.complement = .ok C ↔ A.Deterministic ∧ C = A.complete.flipExits :=
  requireDeterministic_return_eq_ok_iff

theorem linked_complement (linked : A.Linked) {C : Automaton} (result : A.complement = .ok C) :
    C.Linked := by
  obtain ⟨_, rfl⟩ := complement_eq_ok_iff.mp result
  exact linked_flipExits (linked_complete linked)

end Complement

section Minimization

theorem linked_restrict {keep : StateName → Bool} (linked : A.Linked)
    (entry_kept : keep A.entry = true) : (A.restrict keep).Linked where
  entry_mem := mem_keys_restrict.mpr ⟨linked.entry_mem, entry_kept⟩
  source_mem t mem := by
    obtain ⟨old, kept, _⟩ := mem_transitions_restrict.mp mem
    exact mem_keys_restrict.mpr ⟨linked.source_mem t old, kept⟩
  target_mem t mem := by
    obtain ⟨old, _, kept⟩ := mem_transitions_restrict.mp mem
    exact mem_keys_restrict.mpr ⟨linked.target_mem t old, kept⟩
  label_mem t mem := linked.label_mem t (mem_transitions_restrict.mp mem).1

theorem linked_trim (linked : A.Linked) : A.trim.Linked := by
  have linked_live : A.removeDeadStates.Linked :=
    linked_restrict linked (decide_eq_true (Or.inr rfl))
  exact linked_restrict linked_live A.removeDeadStates.entry_reachable

private theorem compositeName_mem_mergeClasses {classes : List (SortedSet StateName)}
    (partition : A.Partition classes) {c : SortedSet StateName} (hc : c ∈ classes) :
    compositeName c ∈ (A.mergeClasses classes).states.keys := by
  obtain ⟨least, found⟩ := partition.exists_least? hc
  rw [mergeClasses, OrderedTable.mem_keys_ofList, List.mem_map]
  exact ⟨_, List.mem_filterMap.mpr ⟨c, hc, by rw [found]; rfl⟩, rfl⟩

private theorem className_mem_mergeClasses {classes : List (SortedSet StateName)}
    (partition : A.Partition classes) {name : StateName} (mem : name ∈ A.states.keys) :
    className classes name ∈ (A.mergeClasses classes).states.keys := by
  obtain ⟨c, hc, member⟩ := partition.cover name mem
  rw [partition.className_eq hc member]
  exact compositeName_mem_mergeClasses partition hc

private theorem linked_mergeClasses {classes : List (SortedSet StateName)} (linked : A.Linked)
    (partition : A.Partition classes) : (A.mergeClasses classes).Linked where
  entry_mem := className_mem_mergeClasses partition linked.entry_mem
  source_mem t mem := by
    obtain ⟨c, hc, _, _, _, _, _, rfl⟩ := mem_transitions_mergeClasses.mp mem
    exact compositeName_mem_mergeClasses partition hc
  target_mem t mem := by
    obtain ⟨_, _, _, _, u, hu, _, rfl⟩ := mem_transitions_mergeClasses.mp mem
    exact className_mem_mergeClasses partition (linked.target_mem u hu)
  label_mem t mem := by
    obtain ⟨_, _, _, _, u, hu, _, rfl⟩ := mem_transitions_mergeClasses.mp mem
    exact linked.label_mem u hu

theorem linked_minimize (linked : A.Linked) {M : Automaton} (result : A.minimize = .ok M) :
    M.Linked := by
  obtain ⟨_, rfl⟩ := minimize_eq_ok_iff.mp result
  exact linked_mergeClasses (linked_trim linked) (refined_stableClasses A.trim).1

end Minimization

end LanguageTheory.Automaton

import LanguageTheory.Proofs.Grammar.Simplification

/-!
Removing unit bodies once is enough. Where no unit body is left, the closure of every head is the
head alone, so the removal copies every set of bodies to its own place and the grammar stays the
same (`UnitFree.withoutUnits_eq`). The removal leaves no unit body, since the non-terminals do not
change.
-/

set_option autoImplicit false
set_option relaxedAutoImplicit false

namespace LanguageTheory.Grammar

variable {G : Grammar}

def UnitFree (G : Grammar) : Prop := ∀ p ∈ G.rules.productions, ¬ G.IsUnit p.body

section Stable

private theorem unitClosure_eq_singleton (stop : ∀ head other, ¬ G.UnitStep head other)
    (head : Symbol) :
    G.unitClosure head = [head] := by
  have alone (symbol : Symbol) : (G.table.bodies symbol).filterMap G.unit? = [] :=
    List.eq_nil_iff_forall_not_mem.mpr fun other mem => stop symbol other (mem_unitSteps.mp mem)
  exact Discovery.reached_of_next_nil alone

theorem UnitFree.withoutUnits_eq (unitFree : G.UnitFree) (free : G.ContextFree)
    (filled : G.rules.Filled) : G.withoutUnits = G := by
  have stop (head other : Symbol) : ¬ G.UnitStep head other := fun step =>
    unitFree _ (mem_table_iff.mp step.1) ⟨other, step.2, rfl⟩
  have copied : ∀ e ∈ G.table.entries, OrderedSet.ofList
      (((G.unitClosure e.1).flatMap G.table.bodies).filter fun body => (G.unit? body).isNone) =
        e.2 := by
    rintro ⟨head, bodies⟩ mem
    have listed : G.table.bodies head = bodies.toList := RuleTable.bodies_of_mem mem
    have kept : ∀ body ∈ bodies.toList, (G.unit? body).isNone = true := by
      intro body inside
      rw [← listed, mem_bodies_table_iff, mem_table_iff] at inside
      exact unit?_isNone_iff.mpr (unitFree _ inside)
    rw [unitClosure_eq_singleton stop, List.flatMap_singleton, listed, List.filter_eq_self.mpr kept,
      OrderedSet.ofList_toList]
  calc G.withoutUnits = G.withTable G.table :=
        congrArg G.withTable (OrderedTable.mapValues_eq_self copied)
    _ = G := withTable_table free filled

end Stable

private theorem unitFree_withoutUnits (free : G.ContextFree) : G.withoutUnits.UnitFree := by
  rintro p member ⟨symbol, known, same⟩
  obtain ⟨head, _, _, mem⟩ := (contextFree_withTable G _).exists_head member
  exact (mem_withoutUnits.mp mem).1 ⟨symbol, (mem_nonTerminals_mapValues free).mp known, same⟩

/-- Unit bodies can be removed from every context-free grammar whose symbols are of one kind each:
the non-terminals stay and derive the words of terminals that they derived, a head has an empty body
exactly if unit bodies lead from it to a head that had one, and removing unit bodies once more
changes nothing. -/
theorem removeUnitProductions_exact (free : G.ContextFree) (disjoint : G.Disjoint) :
    ∃ H, G.removeUnitProductions = .ok H ∧ H.nonTerminals = G.nonTerminals ∧ H.UnitFree ∧
      (∀ A ∈ G.nonTerminals, ∀ word, (∀ symbol ∈ word, symbol ∈ G.terminals) →
        (H.Derives [A] word ↔ G.Derives [A] word)) ∧
      (∀ A, ⟨[A], []⟩ ∈ H.rules.productions ↔
        ∃ B, Relation.ReflTransGen G.UnitStep A B ∧ ⟨[B], []⟩ ∈ G.rules.productions) ∧
      H.removeUnitProductions = .ok H := by
  have free' : G.withoutUnits.ContextFree := contextFree_withTable G _
  have unitFree := unitFree_withoutUnits free
  refine ⟨G.withoutUnits, removeUnitProductions_eq free, nonTerminals_mapValues free, unitFree,
    fun A _ word terminals => ?_, fun A => ?_, ?_⟩
  · exact derives_withoutUnits_iff free (disjoint.outside terminals)
  · have shape : ¬ G.IsUnit [] := by simp [IsUnit]
    simp only [← mem_table_iff, mem_withoutUnits, shape, not_false_eq_true, true_and]
  · rw [removeUnitProductions_eq free', unitFree.withoutUnits_eq free' (filled_ofTable _ _ _ _)]

/-- The unit bodies of `S`, `A` and `B` lead in a circle, and one of `B` to a non-terminal without
bodies. -/
theorem removeUnitProductions_exact_cycle :
    ∃ G H, ofProductions (OrderedSet.ofList ["S", "A", "B", "C"]) (OrderedSet.ofList ["a"]) "S"
        [⟨["S"], ["A"]⟩, ⟨["S"], ["a"]⟩, ⟨["A"], ["B"]⟩, ⟨["A"], []⟩, ⟨["B"], ["S"]⟩,
          ⟨["B"], ["C"]⟩] = .ok G ∧
      G.ContextFree ∧ G.Disjoint ∧ G.removeUnitProductions = .ok H ∧ "C" ∈ H.nonTerminals ∧
      H.UnitFree ∧ G.Derives ["B"] ["a"] ∧
      (∃ B, Relation.ReflTransGen G.UnitStep "S" B ∧ ⟨[B], []⟩ ∈ G.rules.productions) ∧
      H.removeUnitProductions = .ok H := by
  obtain ⟨G, H, built, free, disjoint, removed, known, inside, a, derives, erased⟩ :
      ∃ G H, ofProductions (OrderedSet.ofList ["S", "A", "B", "C"]) (OrderedSet.ofList ["a"]) "S"
          [⟨["S"], ["A"]⟩, ⟨["S"], ["a"]⟩, ⟨["A"], ["B"]⟩, ⟨["A"], []⟩, ⟨["B"], ["S"]⟩,
            ⟨["B"], ["C"]⟩] = .ok G ∧
        G.ContextFree ∧ G.Disjoint ∧ G.removeUnitProductions = .ok H ∧ "B" ∈ G.nonTerminals ∧
        "C" ∈ H.nonTerminals ∧ (∀ symbol ∈ ["a"], symbol ∈ G.terminals) ∧
        ⟨["B"], ["a"]⟩ ∈ H.rules.productions ∧ ⟨["S"], []⟩ ∈ H.rules.productions :=
    ⟨_, _, rfl, by decide, by decide, rfl, by decide, by decide, by decide, by decide, by decide⟩
  obtain ⟨H', removed', _, unitFree, words, erasing, again⟩ :=
    removeUnitProductions_exact free disjoint
  obtain rfl : H = H' := Except.ok.inj (removed.symm.trans removed')
  exact ⟨G, H, built, free, disjoint, removed, inside, unitFree,
    (words "B" known ["a"] a).mp (.single (Step.of_mem derives)), (erasing "S").mp erased, again⟩

end LanguageTheory.Grammar

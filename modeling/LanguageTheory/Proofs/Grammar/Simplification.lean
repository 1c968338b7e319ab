import LanguageTheory.Proofs.Grammar.EmptyBodies
import LanguageTheory.Proofs.Grammar.UnitBodies
import LanguageTheory.Proofs.Grammar.UselessSymbols

/-!
Simplification in full. Empty bodies, unit bodies and useless symbols are removed in this order, and
no step undoes what an earlier one did: the bodies of the second grammar are bodies of the first
one, and the third one only drops productions and symbols. So the result is reduced and generates
the words of the grammar.
-/

set_option autoImplicit false
set_option relaxedAutoImplicit false

namespace LanguageTheory.Grammar

variable {G : Grammar}

theorem removeEpsilonProductions_eq (free : G.ContextFree) :
    G.removeEpsilonProductions = .ok G.withoutErasing := by
  rw [removeEpsilonProductions, requireContextFree_iff.mpr free]
  rfl

theorem removeUnitProductions_eq (free : G.ContextFree) :
    G.removeUnitProductions = .ok G.withoutUnits := by
  rw [removeUnitProductions, requireContextFree_iff.mpr free]
  rfl

theorem removeUselessSymbols_eq (free : G.ContextFree) :
    G.removeUselessSymbols = .ok G.withoutImproductive.withoutUnreachable := by
  have free' : G.withoutImproductive.ContextFree := contextFree_ofTable _ _ _ _
  rw [removeUselessSymbols, removeImproductiveSymbols, requireContextFree_iff.mpr free]
  change G.withoutImproductive.removeUnreachableSymbols = _
  rw [removeUnreachableSymbols, requireContextFree_iff.mpr free']
  rfl

structure Reduced (G : Grammar) : Prop where
  empty_only_at_start : G.EmptyOnlyAtStart
  not_unit : ∀ p ∈ G.rules.productions, ¬ G.IsUnit p.body
  productive : ∀ symbol ∈ G.nonTerminals, symbol ≠ G.start → G.Productive symbol
  reachable : ∀ symbol ∈ G.symbols, ∃ before after, G.Derives [G.start] (before ++ symbol :: after)

section Useless

private theorem mem_withoutUseless {head : Symbol} {body : Word}
    (mem : (head, body) ∈ G.withoutImproductive.withoutUnreachable.table.productions) :
    (head, body) ∈ G.table.productions :=
  (mem_withoutImproductive.mp (mem_withoutUnreachable.mp mem).1).1

private theorem reduced_withoutUseless (apart : G.Separated) (only : G.EmptyOnlyAtStart)
    (others : ∀ head body, (head, body) ∈ G.table.productions → ¬ G.IsUnit body) :
    G.withoutImproductive.withoutUnreachable.Reduced := by
  have apart' := separated_withoutImproductive apart
  have free : G.withoutImproductive.withoutUnreachable.ContextFree := contextFree_ofTable _ _ _ _
  refine ⟨free.emptyOnlyAtStart_iff.mpr fun head mem => ?_, fun p mem unit => ?_,
    fun symbol mem other => ?_, fun symbol => exists_context_withoutUnreachable apart'⟩
  · obtain ⟨same, unused⟩ := apart.free.emptyOnlyAtStart_iff.mp only head (mem_withoutUseless mem)
    exact ⟨same, fun other body production => unused other body (mem_withoutUseless production)⟩
  · obtain ⟨head, _, _, production⟩ := free.exists_head mem
    obtain ⟨symbol, known, same⟩ := unit
    obtain ⟨known, _⟩ := (mem_nonTerminals_withoutUnreachable apart'.free).mp known
    obtain ⟨known, _⟩ := (mem_nonTerminals_withoutImproductive apart.free).mp known
    exact others head p.body (mem_withoutUseless production) ⟨symbol, known, same⟩
  · obtain ⟨left, reached⟩ := (mem_nonTerminals_withoutUnreachable apart'.free).mp mem
    exact productive_withoutUnreachable apart' reached
      (productive_withoutImproductive apart.free left other)

end Useless

/-- The three removals succeed one after the other; the result generates the words of the grammar
and is reduced in every respect at once. -/
theorem simplify_exact (fits : G.WellFormed) (free : G.ContextFree) (disjoint : G.Disjoint) :
    ∃ E U R, G.removeEpsilonProductions = .ok E ∧ E.removeUnitProductions = .ok U ∧
      U.removeUselessSymbols = .ok R ∧ (∀ word, R.Generates word ↔ G.Generates word) ∧
      R.Reduced := by
  have apart : G.Separated := ⟨fits, free, disjoint⟩
  have nonErasing := nonErasing_withoutErasing fits free
  have first := nonErasing.separated apart
  have second := separated_withoutUnits first
  have third := separated_withoutImproductive second
  refine ⟨_, _, _, removeEpsilonProductions_eq free, removeUnitProductions_eq first.free,
    removeUselessSymbols_eq second.free, fun word => ?_, ?_⟩
  · rw [generates_withoutUnreachable_iff third, generates_withoutImproductive_iff second,
      generates_withoutUnits_iff first, nonErasing.generates_iff apart]
  · refine reduced_withoutUseless second (nonErasing.emptyOnlyAtStart.withoutUnits first.free) ?_
    intro head body mem unit
    obtain ⟨symbol, known, same⟩ := unit
    exact (mem_withoutUnits.mp mem).1
      ⟨symbol, (mem_nonTerminals_mapValues first.free).mp known, same⟩

theorem simplify_exact_erasing_start :
    ∃ G E U R, ofProductions (OrderedSet.ofList ["S", "A", "B", "C"])
      (OrderedSet.ofList ["a", "b"]) "S"
        [⟨["S"], ["A", "S"]⟩, ⟨["S"], []⟩, ⟨["A"], ["B"]⟩, ⟨["B"], ["b"]⟩, ⟨["C"], ["a", "C"]⟩] =
        .ok G ∧
      G.WellFormed ∧ G.ContextFree ∧ G.Disjoint ∧ G.removeEpsilonProductions = .ok E ∧
      E.removeUnitProductions = .ok U ∧ U.removeUselessSymbols = .ok R ∧ R.start ≠ G.start ∧
      "a" ∉ R.terminals ∧ R.Generates [] ∧ R.Reduced := by
  obtain ⟨G, E, U, R, built, free, disjoint, first, second, third, renamed, dropped, start,
    production⟩ :
      ∃ G E U R, ofProductions (OrderedSet.ofList ["S", "A", "B", "C"])
        (OrderedSet.ofList ["a", "b"]) "S"
          [⟨["S"], ["A", "S"]⟩, ⟨["S"], []⟩, ⟨["A"], ["B"]⟩, ⟨["B"], ["b"]⟩, ⟨["C"], ["a", "C"]⟩] =
            .ok G ∧
        G.ContextFree ∧ G.Disjoint ∧ G.removeEpsilonProductions = .ok E ∧
        E.removeUnitProductions = .ok U ∧ U.removeUselessSymbols = .ok R ∧ R.start ≠ G.start ∧
        "a" ∉ R.terminals ∧ G.start = "S" ∧ ⟨["S"], []⟩ ∈ G.rules.productions :=
    ⟨_, _, _, _, rfl, by decide, by decide, rfl, rfl, rfl, by decide, by decide, rfl, by decide⟩
  have fits := wellFormed_of_ofProductions built
  obtain ⟨E', U', R', first', second', third', generated, reduced⟩ :=
    simplify_exact fits free disjoint
  obtain rfl : E = E' := Except.ok.inj (first.symm.trans first')
  obtain rfl : U = U' := Except.ok.inj (second.symm.trans second')
  obtain rfl : R = R' := Except.ok.inj (third.symm.trans third')
  have derivation : G.Derives [G.start] [] := by
    rw [start]
    exact .single (Step.of_mem production)
  exact ⟨G, E, U, R, built, fits, free, disjoint, first, second, third, renamed, dropped,
    (generated _).mpr ⟨fun symbol mem => absurd mem List.not_mem_nil, derivation⟩, reduced⟩

end LanguageTheory.Grammar

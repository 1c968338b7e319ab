import LanguageTheory.Proofs.Grammar.LeftRecursion

/-!
Removing direct left recursion only. Each head that is treated loses the bodies that begin with the
head itself, and neither it nor the symbol made for it has such a body afterwards; the bodies of
every other head stay as they are, and so do those of a head that had no such body. One head after
the other keeps this (`Unrolling.treat`), so it holds of one chosen head and of all heads together
(`removeDirectLeftProduction_exact`).
-/

set_option autoImplicit false
set_option relaxedAutoImplicit false

namespace LanguageTheory

def RuleTable.DirectlyRecursive (table : RuleTable) (head : Symbol) : Prop :=
  ∃ rest, head :: rest ∈ table.bodies head

namespace Grammar

variable {G : Grammar} {head symbol fresh : Symbol} {table table' : RuleTable}
  {state : RuleTable × SymbolPool}

section OneHead

private theorem removeDirectRecursion_eq_self (straight : ¬ state.1.DirectlyRecursive head) :
    removeDirectRecursion state head = state := by
  obtain ⟨table, pool⟩ := state
  have none : (table.bodies head).filter (fun body => decide (body.head? = some head)) = [] := by
    refine List.filter_eq_nil_iff.mpr fun body mem leading => straight ?_
    obtain ⟨rest, rfl⟩ := List.head?_eq_some_iff.mp (of_decide_eq_true leading)
    exact ⟨rest, mem⟩
  simp only [removeDirectRecursion, none, List.isEmpty_nil, if_true]

private theorem bodies_removeDirectRecursion_of_ne (other : symbol ≠ head)
    (old : symbol ≠ state.2.fresh.1) :
    (removeDirectRecursion state head).1.bodies symbol = state.1.bodies symbol := by
  obtain ⟨table, pool⟩ := state
  simp only [removeDirectRecursion]
  split
  · rfl
  · rw [RuleTable.bodies, OrderedTable.get?_insert, if_neg old, OrderedTable.get?_insert,
      if_neg other]
    rfl

private theorem Moved.directlyRecursive (moved : Moved head fresh table table')
    (apart : fresh ≠ head) (unused : ∀ body ∈ table.bodies head, fresh ∉ body)
    (recursive : table'.DirectlyRecursive symbol) :
    symbol ≠ head ∧ symbol ≠ fresh ∧ table.DirectlyRecursive symbol := by
  obtain ⟨rest, mem⟩ := recursive
  rcases moved.cases_of_body mem with
    ⟨rfl, none | ⟨tail, filled, old, same⟩⟩ | ⟨rfl, _, other, _, different, same⟩ |
      ⟨here, there, old⟩
  · cases none
  · obtain ⟨first, tail, rfl⟩ := List.exists_cons_of_ne_nil filled
    obtain ⟨rfl, _⟩ := List.cons.inj same
    exact absurd (List.mem_cons_of_mem head List.mem_cons_self) (unused _ old)
  · cases other with
    | nil => exact absurd (List.cons.inj same).1.symm apart
    | cons first other => exact absurd (congrArg some (List.cons.inj same).1.symm) different
  · exact ⟨here, there, rest, old⟩

end OneHead

section AllHeads

variable {treated made : List Symbol}

/-- A table on the way: the heads treated so far and the symbols made for them are not directly
recursive, and the bodies of all other heads, and of those that never were directly recursive, are
as they were. -/
structure Unrolling (G : Grammar) (treated made : List Symbol) (state : RuleTable × SymbolPool) :
    Prop where
  supplied : G.Supplied made state
  straight : ∀ symbol, symbol ∈ treated ∨ symbol ∈ made → ¬ state.1.DirectlyRecursive symbol
  kept : ∀ symbol ∈ G.symbols, (symbol ∈ treated → ¬ G.table.DirectlyRecursive symbol) →
    state.1.bodies symbol = G.table.bodies symbol

private theorem unrolling_start (fits : G.WellFormed) (free : G.ContextFree) :
    G.Unrolling [] [] (G.table, .avoiding G.symbols) where
  supplied := supplied_start fits free
  straight _ mem := (mem.elim List.not_mem_nil List.not_mem_nil).elim
  kept _ _ _ := rfl

private theorem Unrolling.skip (unrolling : G.Unrolling treated made state)
    (straight : ¬ state.1.DirectlyRecursive head) : G.Unrolling (treated ++ [head]) made state where
  supplied := unrolling.supplied
  straight symbol mem := by
    rcases mem with mem | mem
    · rcases List.mem_append.mp mem with before | last
      · exact unrolling.straight symbol (Or.inl before)
      · exact List.mem_singleton.mp last ▸ straight
    · exact unrolling.straight symbol (Or.inr mem)
  kept symbol inside spared :=
    unrolling.kept symbol inside fun before => spared (List.mem_append_left [head] before)

private theorem Unrolling.move (unrolling : G.Unrolling treated made state)
    (new : fresh ∉ G.symbols) (unmade : fresh ∉ made) (inside : head ∈ G.symbols)
    (recursive : state.1.DirectlyRecursive head)
    (moved : Moved head fresh state.1 (removeDirectRecursion state head).1)
    (supplied : G.Supplied (fresh :: made) (removeDirectRecursion state head)) :
    G.Unrolling (treated ++ [head]) (fresh :: made) (removeDirectRecursion state head) where
  supplied := supplied
  straight symbol mem again := by
    have apart : fresh ≠ head := fun same => new (same ▸ inside)
    obtain ⟨other, old, before⟩ := moved.directlyRecursive apart (fun body member occurs =>
      (unrolling.supplied.bodies head body member fresh occurs).elim unmade new) again
    refine unrolling.straight symbol ?_ before
    rcases mem with mem | mem
    · exact Or.inl ((List.mem_append.mp mem).resolve_right fun last => other
        (List.mem_singleton.mp last))
    · exact Or.inr ((List.mem_cons.mp mem).resolve_left old)
  kept symbol known spared := by
    have unused := state.2.fresh_not_mem
    rw [unrolling.supplied.used, List.mem_append, not_or] at unused
    have other : symbol ≠ head := by
      rintro rfl
      have straight := spared (List.mem_append_right treated (List.mem_singleton_self symbol))
      obtain ⟨rest, mem⟩ := recursive
      rw [unrolling.kept symbol known fun _ => straight] at mem
      exact straight ⟨rest, mem⟩
    rw [bodies_removeDirectRecursion_of_ne other fun same => unused.2 (same ▸ known)]
    exact unrolling.kept symbol known fun before => spared (List.mem_append_left [head] before)

theorem Unrolling.treat (unrolling : G.Unrolling treated made state) (free : G.ContextFree)
    (disjoint : G.Disjoint) (old : head ∉ made) :
    ∃ made', G.Unrolling (treated ++ [head]) made' (removeDirectRecursion state head) := by
  by_cases recursive : state.1.DirectlyRecursive head
  · obtain ⟨rest, mem⟩ := recursive
    have known : head ∈ G.table.keys :=
      ((unrolling.supplied.keys head).mp (RuleTable.mem_keys_of_mem_bodies mem)).resolve_left old
    rcases unrolling.supplied.removeDirect_cases free disjoint known with
      ⟨straight, _⟩ | ⟨fresh, unmade, new, moved, supplied⟩
    · exact absurd rfl (straight _ mem)
    · have inside := mem_symbols_of_nonTerminal (free.key_mem known)
      exact ⟨fresh :: made, unrolling.move new unmade inside ⟨rest, mem⟩ moved supplied⟩
  · rw [removeDirectRecursion_eq_self recursive]
    exact ⟨made, unrolling.skip recursive⟩

private theorem Unrolling.treatAll (unrolling : G.Unrolling treated made state)
    (free : G.ContextFree) (disjoint : G.Disjoint) {heads : List Symbol}
    (inside : ∀ head ∈ heads, head ∈ G.symbols) :
    ∃ made', G.Unrolling (treated ++ heads) made' (heads.foldl removeDirectRecursion state) := by
  induction heads generalizing treated made state with
  | nil => exact ⟨made, (List.append_nil treated).symm ▸ unrolling⟩
  | cons head heads ih =>
    obtain ⟨here, later⟩ := List.forall_mem_cons.mp inside
    obtain ⟨made', next⟩ :=
      unrolling.treat free disjoint fun new => unrolling.supplied.new head new here
    rw [List.append_cons]
    exact ih next later

private theorem exists_unrolling (fits : G.WellFormed) (free : G.ContextFree)
    (disjoint : G.Disjoint) (asked : Option Symbol) : ∃ treated made state,
      G.removeDirectLeftProduction asked = .ok (G.withTable state.1) ∧
      G.Unrolling treated made state ∧
      (∀ A ∈ treated, asked = none ∨ asked = some A) ∧
      ∀ A ∈ G.table.keys, asked = none ∨ asked = some A → A ∈ treated := by
  have start := unrolling_start fits free
  have required : G.requireContextFree .removeDirectLeftProduction = .ok () :=
    requireContextFree_iff.mpr free
  cases asked with
  | none =>
    have inside (head : Symbol) (known : head ∈ G.table.keys) : head ∈ G.symbols :=
      mem_symbols_of_nonTerminal (free.key_mem known)
    obtain ⟨made, unrolling⟩ := start.treatAll free disjoint inside
    refine ⟨_, made, _, ?_, unrolling, fun _ _ => Or.inl rfl, fun _ known _ => known⟩
    rw [removeDirectLeftProduction, required]
    rfl
  | some head =>
    have unmade : head ∉ ([] : List Symbol) := List.not_mem_nil
    obtain ⟨made, unrolling⟩ := start.treat free disjoint unmade
    refine ⟨[head], made, _, ?_, unrolling, fun A mem => ?_, fun A _ same => ?_⟩
    · rw [removeDirectLeftProduction, required]
      rfl
    · exact Or.inr (congrArg some (List.mem_singleton.mp mem).symm)
    · exact List.mem_singleton.mpr
        (Option.some.inj (same.resolve_left fun none => by cases none)).symm

end AllHeads

/-- Direct left recursion can be removed from one head or from all heads of every context-free
grammar whose symbols are of one kind each. The non-terminals derive the words of terminals that
they derived; no head that is treated and no new non-terminal has a body that begins with itself;
and the bodies of the heads without direct recursion, and of those that are not asked for, are what
they were. -/
theorem removeDirectLeftProduction_exact (fits : G.WellFormed) (free : G.ContextFree)
    (disjoint : G.Disjoint) (asked : Option Symbol) :
    ∃ H, G.removeDirectLeftProduction asked = .ok H ∧
      (∀ A ∈ G.nonTerminals, ∀ word, G.IsTerminalWord word →
        (H.Derives [A] word ↔ G.Derives [A] word)) ∧
      (∀ A, asked = none ∨ asked = some A ∨ A ∉ G.nonTerminals → ¬ H.table.DirectlyRecursive A) ∧
      ∀ A ∈ G.nonTerminals, ¬ G.table.DirectlyRecursive A ∨ ¬ (asked = none ∨ asked = some A) →
        H.rules.bodies [A] = G.rules.bodies [A] := by
  obtain ⟨treated, made, state, done, unrolling, only, all⟩ :=
    exists_unrolling fits free disjoint asked
  refine ⟨G.withTable state.1, done, fun A known word terminals => ?_,
    fun A concerned recursive => ?_, fun A known spared => ?_⟩
  · refine unrolling.supplied.faithful [A] ?_ word terminals
    exact List.forall_mem_singleton.mpr (mem_symbols_of_nonTerminal known)
  · obtain ⟨rest, mem⟩ := recursive
    rw [bodies_withTable] at mem
    refine unrolling.straight A ?_ ⟨rest, mem⟩
    rcases (unrolling.supplied.keys A).mp (RuleTable.mem_keys_of_mem_bodies mem) with new | known
    · exact Or.inr new
    · rw [← or_assoc] at concerned
      exact Or.inl (all A known (concerned.resolve_right (not_not.mpr (free.key_mem known))))
  · apply OrderedSet.eq_of_toList_eq
    rw [toList_bodies, toList_bodies, bodies_withTable]
    refine unrolling.kept A (mem_symbols_of_nonTerminal known) fun mem => ?_
    exact spared.resolve_right (not_not.mpr (only A mem))

/-- Of two heads that are directly recursive, one is treated. -/
theorem removeDirectLeftProduction_exact_chosen_head :
    ∃ G H, ofProductions (OrderedSet.ofList ["S", "A"]) (OrderedSet.ofList ["a", "b"]) "S"
        [⟨["S"], ["S", "S", "a"]⟩, ⟨["S"], ["S"]⟩, ⟨["S"], ["A"]⟩, ⟨["S"], []⟩, ⟨["A"], ["A", "b"]⟩,
          ⟨["A"], ["b"]⟩] = .ok G ∧ G.WellFormed ∧ G.ContextFree ∧ G.Disjoint ∧
      G.removeDirectLeftProduction (some "S") = .ok H ∧ G.table.DirectlyRecursive "S" ∧
      H.Derives ["S"] ["b", "a"] ∧ ¬ H.table.DirectlyRecursive "S" ∧ "Δ" ∈ H.nonTerminals ∧
      ¬ H.table.DirectlyRecursive "Δ" ∧ H.rules.bodies ["A"] = G.rules.bodies ["A"] := by
  obtain ⟨G, H, built, free, disjoint, removed, start, other, letters, first, second, third,
    fourth, made⟩ :
      ∃ G H, ofProductions (OrderedSet.ofList ["S", "A"]) (OrderedSet.ofList ["a", "b"]) "S"
          [⟨["S"], ["S", "S", "a"]⟩, ⟨["S"], ["S"]⟩, ⟨["S"], ["A"]⟩, ⟨["S"], []⟩,
            ⟨["A"], ["A", "b"]⟩, ⟨["A"], ["b"]⟩] = .ok G ∧ G.ContextFree ∧ G.Disjoint ∧
        G.removeDirectLeftProduction (some "S") = .ok H ∧ "S" ∈ G.nonTerminals ∧
          "A" ∈ G.nonTerminals ∧
        (∀ symbol ∈ ["b", "a"], symbol ∈ G.terminals) ∧
        ("S", ["S", "S", "a"]) ∈ G.table.productions ∧ ("S", ["A"]) ∈ G.table.productions ∧
        ("A", ["b"]) ∈ G.table.productions ∧ ("S", []) ∈ G.table.productions ∧
        ("Δ" ∈ H.nonTerminals ∧ "Δ" ∉ G.nonTerminals) :=
    ⟨_, _, rfl, by decide, by decide, rfl, by decide, by decide, by decide, by decide, by decide,
      by decide, by decide, by decide⟩
  have fits := wellFormed_of_ofProductions built
  obtain ⟨H', removed', words, straight, kept⟩ :=
    removeDirectLeftProduction_exact fits free disjoint (some "S")
  obtain rfl : H = H' := Except.ok.inj (removed.symm.trans removed')
  have leaf : G.Derives ["S"] ["b"] :=
    (Derives.of_production second).trans (Derives.of_production third)
  have derivation : G.Derives ["S"] ["b", "a"] := (Derives.of_production first).trans
    ((leaf.append (Derives.of_production fourth)).append_right ["a"])
  exact ⟨G, H, built, fits, free, disjoint, removed, ⟨_, mem_bodies_table_iff.mpr first⟩,
    (words "S" start _ letters).mpr derivation, straight "S" (Or.inr (Or.inl rfl)), made.1,
    straight "Δ" (Or.inr (Or.inr made.2)), kept "A" other (Or.inr (by decide))⟩

end Grammar

end LanguageTheory

import LanguageTheory.Proofs.FreshName
import LanguageTheory.Proofs.Grammar.SymbolOrder

/-!
Removing left recursion. The symbols that the steps make are new, and every step keeps the words of
terminals (`Supplied`); so the result generates the words of the grammar. If no body is empty and no
symbol derives itself, the steps keep an order of the symbols too, and no symbol of the result is
left recursive.
-/

set_option autoImplicit false
set_option relaxedAutoImplicit false

namespace LanguageTheory.Grammar

variable {G : Grammar}

section Supply

/-- A table on the way, with the symbols made so far, the last one first: new symbols are new, and
words over the symbols of the grammar derive the same words of terminals as before. -/
structure Supplied (G : Grammar) (made : List Symbol) (state : RuleTable × SymbolPool) : Prop where
  used : state.2.used = made ++ G.symbols
  new : ∀ symbol ∈ made, symbol ∉ G.symbols
  keys : ∀ symbol, symbol ∈ state.1.keys ↔ symbol ∈ made ∨ symbol ∈ G.table.keys
  bodies : ∀ symbol, ∀ body ∈ state.1.bodies symbol, ∀ other ∈ body, other ∈ made ∨
    other ∈ G.symbols
  faithful : ∀ u : Word, (∀ symbol ∈ u, symbol ∈ G.symbols) → ∀ word, G.IsTerminalWord word →
    ((G.withTable state.1).Derives u word ↔ G.Derives u word)

theorem supplied_start (fits : G.WellFormed) (free : G.ContextFree) :
    G.Supplied [] (G.table, .avoiding G.symbols) where
  used := rfl
  new symbol mem := absurd mem List.not_mem_nil
  keys symbol := by simp
  bodies symbol body mem other member := by
    rw [mem_bodies_table_iff] at mem
    rcases fits.body_declared mem member with inside | terminal
    · exact Or.inr (mem_symbols_of_nonTerminal inside)
    · exact Or.inr (mem_symbols_of_terminal terminal)
  faithful u _ word _ := by
    constructor
    · refine Derives.of_productions (contextFree_withTable G _) fun head body mem => ?_
      rw [mem_table_withTable, mem_bodies_table_iff] at mem
      exact .single ((step_single_iff free).mpr mem)
    · exact Derives.of_productions free fun head body mem => .of_body (mem_bodies_table_iff.mpr mem)

variable {made : List Symbol} {state : RuleTable × SymbolPool}

private theorem Supplied.mem_of_body (supplied : G.Supplied made state) (free : G.ContextFree)
    {symbol : Symbol} {body : Word} (mem : body ∈ state.1.bodies symbol) :
    symbol ∈ made ∨ symbol ∈ G.symbols := by
  have key := (supplied.keys symbol).mp (RuleTable.mem_keys_of_mem_bodies mem)
  exact key.imp_right fun known => mem_symbols_of_nonTerminal (free.key_mem known)

private theorem Supplied.substitute (supplied : G.Supplied made state) (free : G.ContextFree)
    (disjoint : G.Disjoint) {next later : Symbol} (known : next ∈ G.table.keys)
    (distinct : next ≠ later) :
    G.Supplied made (substituteLeading later state.1 next, state.2) := by
  have key : next ∈ state.1.keys := (supplied.keys next).mpr (Or.inr known)
  exact {
    used := supplied.used
    new := supplied.new
    keys := fun symbol => by
      rw [keys_substituteLeading]
      exact supplied.keys symbol
    bodies := fun symbol body mem other member => by
      rw [mem_bodies_substituteLeading key] at mem
      split at mem
      · obtain ⟨old, _⟩ | ⟨front, old, tail, old', rfl⟩ := mem
        · exact supplied.bodies later body old other member
        · rcases List.mem_append.mp member with inside | inside
          · exact supplied.bodies next front old other inside
          · exact supplied.bodies later _ old' other (List.mem_cons_of_mem next inside)
      · exact supplied.bodies symbol body mem other member
    faithful := fun u declared word terminals => by
      have final : next ∉ word := fun mem => disjoint next (free.key_mem known) (terminals next mem)
      rw [derives_substituteLeading_iff key distinct final]
      exact supplied.faithful u declared word terminals }

private theorem Supplied.move (supplied : G.Supplied made state) (free : G.ContextFree)
    (disjoint : G.Disjoint) {head : Symbol} (known : head ∈ G.table.keys)
    (pool : (removeDirectRecursion state head).2 = state.2.fresh.2)
    (moved : Moved head state.2.fresh.1 state.1 (removeDirectRecursion state head).1) :
    G.Supplied (state.2.fresh.1 :: made) (removeDirectRecursion state head) := by
  have unused := state.2.fresh_not_mem
  rw [supplied.used, List.mem_append, not_or] at unused
  have apart (symbol : Symbol) (mem : symbol ∈ made ∨ symbol ∈ G.symbols) :
      symbol ≠ state.2.fresh.1 := by
    rintro rfl
    exact mem.elim unused.1 unused.2
  have key := free.key_mem known
  exact {
    used := by rw [pool, SymbolPool.used_fresh, supplied.used, List.cons_append]
    new := List.forall_mem_cons.mpr ⟨unused.2, supplied.new⟩
    keys := fun symbol => by
      rw [moved.keys, supplied.keys, List.mem_cons]
      constructor
      · rintro ((old | old) | rfl | rfl)
        · exact Or.inl (Or.inr old)
        · exact Or.inr old
        · exact Or.inr known
        · exact Or.inl (Or.inl rfl)
      · rintro ((rfl | old) | old)
        · exact Or.inr (Or.inr rfl)
        · exact Or.inl (Or.inl old)
        · exact Or.inl (Or.inr old)
    bodies := fun symbol body mem other member => by
      rcases moved.mem_of_body mem member with rfl | ⟨source, old, stored, inside⟩
      · exact Or.inl List.mem_cons_self
      · exact (supplied.bodies source old stored other inside).imp_left (List.mem_cons_of_mem _)
    faithful := fun u declared word terminals => by
      have declared_word (symbol : Symbol) (mem : symbol ∈ word) :=
        mem_symbols_of_terminal (terminals symbol mem)
      rw [← supplied.faithful u declared word terminals]
      constructor
      · refine moved.derives_of_new (fun symbol body mem inside => ?_) (fun mem => ?_) fun mem => ?_
        · exact apart _ (supplied.bodies symbol body mem _ inside) rfl
        · exact apart _ (Or.inr (declared _ mem)) rfl
        · exact apart _ (Or.inr (declared_word _ mem)) rfl
      · refine moved.derives_of_old (fun symbol body mem => ?_) fun mem => ?_
        · exact apart symbol (supplied.mem_of_body free mem)
        · exact disjoint head key (terminals head mem) }

theorem Supplied.removeDirect_cases (supplied : G.Supplied made state) (free : G.ContextFree)
    (disjoint : G.Disjoint) {head : Symbol} (known : head ∈ G.table.keys) :
    ((∀ body ∈ state.1.bodies head, body.head? ≠ some head) ∧
        removeDirectRecursion state head = state) ∨
      ∃ fresh, fresh ∉ made ∧ fresh ∉ G.symbols ∧
        Moved head fresh state.1 (removeDirectRecursion state head).1 ∧
        G.Supplied (fresh :: made) (removeDirectRecursion state head) := by
  have unused := state.2.fresh_not_mem
  rw [supplied.used, List.mem_append, not_or] at unused
  have apart : state.2.fresh.1 ≠ head := by
    intro same
    exact unused.2 (same ▸ mem_symbols_of_nonTerminal (free.key_mem known))
  rcases removeDirectRecursion_cases state head apart with none | ⟨pool, moved⟩
  · exact Or.inl none
  · exact Or.inr ⟨_, unused.1, unused.2, moved, supplied.move free disjoint known pool moved⟩

private theorem Supplied.substituteMany (supplied : G.Supplied made state) (free : G.ContextFree)
    (disjoint : G.Disjoint) {earlier : List Symbol} {later : Symbol}
    (known : ∀ next ∈ earlier, next ∈ G.table.keys) (outside : later ∉ earlier) :
    G.Supplied made (earlier.foldl (substituteLeading later) state.1, state.2) := by
  induction earlier generalizing state with
  | nil => exact supplied
  | cons next earlier ih =>
    rw [List.mem_cons, not_or] at outside
    obtain ⟨here, rest⟩ := List.forall_mem_cons.mp known
    exact ih (supplied.substitute free disjoint here (Ne.symm outside.1)) rest outside.2

end Supply

section Order

variable {made earlier : List Symbol} {state : RuleTable × SymbolPool}

private theorem Supplied.treat (supplied : G.Supplied made state) (free : G.ContextFree)
    (disjoint : G.Disjoint) {later : Symbol}
    (known : ∀ head ∈ earlier ++ [later], head ∈ G.table.keys)
    (distinct : (earlier ++ [later]).Nodup)
    (straight : G.Proper → G.Straight made earlier state.1) :
    ∃ made', G.Supplied made' (removeDirectRecursion
        (earlier.foldl (substituteLeading later) state.1, state.2) later) ∧
      (G.Proper → G.Straight made' (earlier ++ [later]) (removeDirectRecursion
        (earlier.foldl (substituteLeading later) state.1, state.2) later).1) := by
  have old (head : Symbol) (mem : head ∈ earlier ++ [later]) : head ∉ made := fun inside =>
    supplied.new head inside (mem_symbols_of_nonTerminal (free.key_mem (known head mem)))
  rw [List.forall_mem_append] at known old
  have outside : later ∉ earlier := fun mem => (List.nodup_append.mp distinct).2.2 later mem later
    (List.mem_singleton_self later) rfl
  have later_known := known.2 later (List.mem_singleton_self later)
  have later_old := old.2 later (List.mem_singleton_self later)
  have supplied' := supplied.substituteMany free disjoint known.1 outside
  have substituted (proper : G.Proper) := by
    have straight_all : G.Straight made ([] ++ earlier) state.1 := straight proper
    exact straight_all.substituteMany
      (fun next mem => (supplied.keys next).mpr (Or.inr (known.1 next mem))) old.1
      (List.nodup_append.mp distinct).1 outside later_old fun _ _ _ => List.not_mem_nil
  rcases supplied'.removeDirect_cases free disjoint later_known with
    ⟨direct, same⟩ | ⟨fresh, new, new', moved, supplied''⟩
  · rw [same]
    refine ⟨made, supplied', fun proper => ?_⟩
    obtain ⟨straight', firsts⟩ := substituted proper
    exact straight'.extend outside firsts direct
  · refine ⟨fresh :: made, supplied'', fun proper => ?_⟩
    obtain ⟨straight', firsts⟩ := substituted proper
    refine straight'.move proper moved outside later_old firsts ⟨new, fun mem => ?_⟩ ?_
    · exact new' (mem_symbols_of_nonTerminal (free.key_mem (known.1 fresh mem)))
    · intro symbol body mem inside
      exact (supplied'.bodies symbol body mem fresh inside).elim new new'

private theorem Supplied.treatAll (supplied : G.Supplied made state) (free : G.ContextFree)
    (disjoint : G.Disjoint) {rest : List Symbol} (order : G.table.keys = earlier ++ rest)
    (straight : G.Proper → G.Straight made earlier state.1) :
    ∃ made', G.Supplied made' (removeRecursionInOrder earlier state rest) ∧
      (G.Proper → G.Straight made' G.table.keys (removeRecursionInOrder earlier state rest).1) := by
  induction rest generalizing made earlier state with
  | nil =>
    rw [List.append_nil] at order
    exact ⟨made, supplied, order ▸ straight⟩
  | cons later rest ih =>
    have shape : G.table.keys = (earlier ++ [later]) ++ rest := by rw [order, List.append_cons]
    have distinct : G.table.keys.Nodup := G.table.nodup
    rw [shape] at distinct
    have known (head : Symbol) (mem : head ∈ earlier ++ [later]) : head ∈ G.table.keys :=
      shape ▸ List.mem_append_left rest mem
    obtain ⟨made', supplied', straight'⟩ := supplied.treat free disjoint known
      (List.nodup_append.mp distinct).1 straight
    exact ih supplied' shape straight'

/-- Left recursion can be removed from every context-free grammar without a change to the words it
generates; if no body is empty and no symbol derives itself, no symbol is left recursive
afterwards. -/
theorem removeLeftProduction_exact (fits : G.WellFormed) (free : G.ContextFree)
    (disjoint : G.Disjoint) : ∃ H, G.removeLeftProduction = .ok H ∧
      (∀ word, H.Generates word ↔ G.Generates word) ∧
      (G.Proper → ∀ symbol, ¬ H.LeftRecursive symbol) := by
  obtain ⟨made, supplied, straight⟩ := (supplied_start fits free).treatAll free disjoint
    (List.nil_append G.table.keys).symm (straight_start free)
  refine ⟨G.withTable (removeRecursionInOrder [] (G.table, .avoiding G.symbols) G.table.keys).1, ?_,
    fun word => ?_, fun proper symbol => ?_⟩
  · rw [removeLeftProduction, requireContextFree_iff.mpr free]
    rfl
  · refine and_congr_right fun terminals => supplied.faithful [G.start] ?_ word terminals
    exact List.forall_mem_singleton.mpr (mem_symbols_of_nonTerminal fits.start_mem)
  · refine (straight proper).not_leftRecursive (fun head body mem => ?_) symbol
    exact (supplied.keys head).mp (RuleTable.mem_keys_of_mem_bodies mem)

theorem removeLeftProduction_exact_two_heads :
    ∃ G H, ofProductions (OrderedSet.ofList ["S", "A"]) (OrderedSet.ofList ["a", "b", "c", "d"]) "S"
        [⟨["S"], ["A", "a"]⟩, ⟨["S"], ["b"]⟩, ⟨["A"], ["S", "c"]⟩, ⟨["A"], ["d"]⟩] = .ok G ∧
      G.WellFormed ∧ G.ContextFree ∧ G.Disjoint ∧ G.Proper ∧ G.removeLeftProduction = .ok H ∧
      H.Generates ["d", "a"] ∧ "Δ" ∈ H.nonTerminals ∧ ∀ symbol, ¬ H.LeftRecursive symbol := by
  obtain ⟨G, H, built, free, disjoint, grows, removed, start, new, word, first, second⟩ :
      ∃ G H, ofProductions (OrderedSet.ofList ["S", "A"])
        (OrderedSet.ofList ["a", "b", "c", "d"]) "S"
          [⟨["S"], ["A", "a"]⟩, ⟨["S"], ["b"]⟩, ⟨["A"], ["S", "c"]⟩, ⟨["A"], ["d"]⟩] = .ok G ∧
        G.ContextFree ∧ G.Disjoint ∧
        (∀ p ∈ G.rules.productions, G.weight p.head < G.weight p.body) ∧
        G.removeLeftProduction = .ok H ∧ G.start = "S" ∧ "Δ" ∈ H.nonTerminals ∧
        (∀ symbol ∈ ["d", "a"], symbol ∈ G.terminals) ∧
        ⟨["S"], ["A", "a"]⟩ ∈ G.rules.productions ∧ ⟨["A"], ["d"]⟩ ∈ G.rules.productions :=
    ⟨_, _, rfl, by decide, by decide, by decide, rfl, rfl, by decide, by decide, by decide,
      by decide⟩
  have fits := wellFormed_of_ofProductions built
  have proper := proper_of_weight grows
  obtain ⟨H', removed', generated, straight⟩ := removeLeftProduction_exact fits free disjoint
  obtain rfl : H = H' := Except.ok.inj (removed.symm.trans removed')
  have leaf : G.Step ["A", "a"] ["d", "a"] := (Step.of_mem second).append_right ["a"]
  have derivation : G.Derives [G.start] ["d", "a"] := by
    rw [start]
    exact .head (.of_mem first) (.single leaf)
  exact ⟨G, H, built, fits, free, disjoint, proper, removed,
    (generated _).mpr ⟨word, derivation⟩, new, straight proper⟩

end Order

end LanguageTheory.Grammar

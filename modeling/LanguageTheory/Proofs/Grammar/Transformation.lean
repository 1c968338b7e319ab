import LanguageTheory.Proofs.Grammar.Factorization
import LanguageTheory.Proofs.Grammar.LeftRecursion
import LanguageTheory.Proofs.Grammar.Notation
import LanguageTheory.Proofs.Grammar.ShownGrammar
import LanguageTheory.Proofs.Grammar.Simplification
import LanguageTheory.RegularGrammar

/-!
The transformations of context-free grammars as one type of steps. Each of them succeeds on every
consistent context-free grammar, and its result is consistent and context-free again
(`Transformation.exists_result`). So every grammar is consistent, whether it was built from parts,
read from a text, made from an automaton or transformed (`Made.consistent`). Terminals need not be
kept apart from non-terminals for that.
-/

set_option autoImplicit false
set_option relaxedAutoImplicit false

namespace LanguageTheory.Grammar

variable {G H : Grammar}

section Rows

variable {table : RuleTable}

def Declares (G : Grammar) (table : RuleTable) : Prop :=
  ∀ head, ∀ body ∈ table.bodies head, ∀ symbol ∈ body,
    (symbol ∈ G.nonTerminals ∨ symbol ∈ table.keys ∨ symbol ∈ G.terminals) ∧
      symbol ≠ Symbol.epsilon

private theorem WellFormed.declares_table (fits : G.WellFormed) : G.Declares G.table := by
  intro head body mem symbol inside
  rw [mem_bodies_table_iff] at mem
  refine ⟨(fits.body_declared mem inside).imp_right Or.inr, ?_⟩
  rintro rfl
  exact fits.body_visible mem inside

private theorem Declares.consistent (declares : G.Declares table)
    (begins : G.start ∈ G.nonTerminals) :
    (G.withTable table).Consistent := by
  have known {symbol : Symbol} : symbol ∈ (G.withTable table).nonTerminals ↔
      symbol ∈ G.nonTerminals ∨ symbol ∈ table.keys := mem_nonTerminals_ofTable
  refine ⟨(contextFree_withTable G table).wellFormed (known.mpr (Or.inl begins)) ?_,
    filled_ofTable _ _ _ _⟩
  intro head body mem symbol inside
  obtain ⟨declared, visible⟩ := declares head body (mem_table_withTable.mp mem) symbol inside
  exact ⟨(or_assoc.mpr declared).imp_left known.mpr, visible⟩

private theorem Declares.of_origin {table' : RuleTable} (declares : G.Declares table)
    (keys : ∀ head ∈ table.keys, head ∈ table'.keys)
    (origin : ∀ head, ∀ body ∈ table'.bodies head, ∀ symbol ∈ body,
      (∃ head, ∃ body ∈ table.bodies head, symbol ∈ body) ∨
        (symbol ∈ table'.keys ∧ symbol ≠ Symbol.epsilon)) :
    G.Declares table' := by
  intro head body mem symbol inside
  rcases origin head body mem symbol inside with ⟨_, _, old, inside⟩ | ⟨new, visible⟩
  · obtain ⟨declared, visible⟩ := declares _ _ old symbol inside
    exact ⟨declared.imp_right (Or.imp_left (keys symbol)), visible⟩
  · exact ⟨Or.inr (Or.inl new), visible⟩

private theorem Declares.substituteLeading (declares : G.Declares table) (earlier later : Symbol) :
    G.Declares (substituteLeading later table earlier) := by
  by_cases known : earlier ∈ table.keys
  · refine declares.of_origin
      (fun head mem => (keys_substituteLeading table earlier later).symm ▸ mem) ?_
    intro head body mem symbol inside
    rw [mem_bodies_substituteLeading known] at mem
    split at mem
    · rcases mem with ⟨old, _⟩ | ⟨front, first, tail, second, rfl⟩
      · exact Or.inl ⟨later, body, old, inside⟩
      · rcases List.mem_append.mp inside with inside | inside
        · exact Or.inl ⟨earlier, front, first, inside⟩
        · exact Or.inl ⟨later, earlier :: tail, second, List.mem_cons_of_mem earlier inside⟩
    · exact Or.inl ⟨head, body, mem, inside⟩
  · have same : Grammar.substituteLeading later table earlier = table := by
      rw [Grammar.substituteLeading, OrderedTable.get?_eq_none_iff.mpr known]
    rwa [same]

/-- Moving direct recursion changes the bodies of a head and of a new symbol; all these end in the
new symbol, behind a part of a body that the head had, or are empty. -/
theorem removeDirectRecursion_eq (table : RuleTable) (pool : SymbolPool) (head : Symbol) :
    removeDirectRecursion (table, pool) head = (table, pool) ∨ head ∈ table.keys ∧
      ∃ headBodies freshBodies, removeDirectRecursion (table, pool) head =
        ((table.insert head headBodies).insert pool.fresh.1 freshBodies, pool.fresh.2) ∧
      ∀ body, body ∈ headBodies ∨ body ∈ freshBodies → body = [] ∨
        ∃ whole ∈ table.bodies head, ∃ front ⊆ whole, body = front ++ [pool.fresh.1] := by
  simp only [removeDirectRecursion]
  split
  · exact Or.inl rfl
  · rename_i recursive
    rw [List.isEmpty_iff] at recursive
    obtain ⟨leading, inside⟩ := List.exists_mem_of_ne_nil _ recursive
    refine Or.inr ⟨RuleTable.mem_keys_of_mem_bodies (List.mem_filter.mp inside).1, _, _, rfl, ?_⟩
    rintro body (mem | mem)
    · obtain ⟨whole, inside, rfl⟩ := List.mem_map.mp (OrderedSet.mem_ofList.mp mem)
      exact Or.inr ⟨whole, (List.mem_filter.mp inside).1, whole, List.Subset.refl whole, rfl⟩
    · rcases List.mem_append.mp (OrderedSet.mem_ofList.mp mem) with mem | empty
      · obtain ⟨tail, inside, rfl⟩ := List.mem_map.mp mem
        obtain ⟨whole, recursive, rfl⟩ := List.mem_map.mp (List.mem_filter.mp inside).1
        exact Or.inr ⟨whole, (List.mem_filter.mp recursive).1, whole.tail,
          List.tail_subset whole, rfl⟩
      · exact Or.inl (List.mem_singleton.mp empty)

private theorem Declares.removeDirectRecursion (declares : G.Declares table) (pool : SymbolPool)
    (head : Symbol) : G.Declares (removeDirectRecursion (table, pool) head).1 := by
  rcases removeDirectRecursion_eq table pool head with same |
    ⟨_, headBodies, freshBodies, made, shape⟩
  · rwa [same]
  · rw [made]
    refine declares.of_origin (fun key mem => ?_) fun key body mem symbol inside => ?_
    · exact OrderedTable.mem_keys_insert.mpr
        (Or.inl (OrderedTable.mem_keys_insert.mpr (Or.inl mem)))
    have cases : body ∈ table.bodies key ∨ (body ∈ headBodies ∨ body ∈ freshBodies) := by
      simp only [RuleTable.mem_bodies_insert] at mem
      split at mem
      · exact Or.inr (Or.inr mem)
      · split at mem
        · exact Or.inr (Or.inl mem)
        · exact Or.inl mem
    rcases cases with old | new
    · exact Or.inl ⟨key, body, old, inside⟩
    · rcases shape body new with rfl | ⟨whole, old, front, part, rfl⟩
      · exact absurd inside List.not_mem_nil
      · rcases List.mem_append.mp inside with inside | last
        · exact Or.inl ⟨head, whole, old, part inside⟩
        · obtain rfl := List.mem_singleton.mp last
          exact Or.inr ⟨OrderedTable.mem_keys_insert.mpr (Or.inr rfl),
            SymbolPool.fresh_ne_epsilon pool⟩

private theorem Declares.removeDirectRecursions (declares : G.Declares table) (pool : SymbolPool)
    (heads : List Symbol) :
    G.Declares (heads.foldl Grammar.removeDirectRecursion (table, pool)).1 := by
  induction heads generalizing table pool with
  | nil => exact declares
  | cons head heads ih => exact ih (declares.removeDirectRecursion pool head) _

private theorem Declares.substituteAll (declares : G.Declares table) (later : Symbol)
    (earlier : List Symbol) :
    G.Declares (earlier.foldl (Grammar.substituteLeading later) table) := by
  induction earlier generalizing table with
  | nil => exact declares
  | cons first earlier ih => exact ih (declares.substituteLeading first later)

private theorem Declares.removeRecursionInOrder (declares : G.Declares table) (pool : SymbolPool)
    (earlier heads : List Symbol) :
    G.Declares (removeRecursionInOrder earlier (table, pool) heads).1 := by
  induction heads generalizing earlier table pool with
  | nil => exact declares
  | cons later heads ih =>
    have treated := (declares.substituteAll later earlier).removeDirectRecursion pool later
    exact ih treated _ (earlier ++ [later])

end Rows

section Transformations

inductive Transformation where
  | removeDirectLeftProduction (head : Option Symbol)
  | removeLeftProduction
  | directFactorization
  | indirectFactorization
  | factorize (rounds : Nat)
  | removeEpsilonProductions
  | removeUnitProductions
  | removeImproductiveSymbols
  | removeUnreachableSymbols
  | removeUselessSymbols
  deriving DecidableEq

def Transformation.apply : Transformation → Grammar → Except Error Grammar
  | .removeDirectLeftProduction head, G => G.removeDirectLeftProduction head
  | .removeLeftProduction, G => G.removeLeftProduction
  | .directFactorization, G => G.directFactorization
  | .indirectFactorization, G => G.indirectFactorization
  | .factorize rounds, G => G.factorize rounds
  | .removeEpsilonProductions, G => G.removeEpsilonProductions
  | .removeUnitProductions, G => G.removeUnitProductions
  | .removeImproductiveSymbols, G => G.removeImproductiveSymbols
  | .removeUnreachableSymbols, G => G.removeUnreachableSymbols
  | .removeUselessSymbols, G => G.removeUselessSymbols

private theorem contextFree_of_required {operation : Operation} {rest : Unit → Except Error Grammar}
    (done : (G.requireContextFree operation >>= rest) = .ok H) : G.ContextFree := by
  cases required : G.requireContextFree operation with
  | error e =>
    rw [required] at done
    cases done
  | ok checked => exact requireContextFree_iff.mp required

theorem ContextFree.checked (free : G.ContextFree) (operation : Operation) (H : Grammar) :
    (do G.requireContextFree operation; return H : Except Error Grammar) = .ok H := by
  rw [requireContextFree_iff.mpr free]
  rfl

theorem Transformation.contextFree_of_apply {t : Transformation} (done : t.apply G = .ok H) :
    G.ContextFree := by
  cases t with
  | removeUselessSymbols =>
    cases first : G.removeImproductiveSymbols with
    | error e =>
      rw [Transformation.apply, Grammar.removeUselessSymbols, first] at done
      cases done
    | ok productive => exact contextFree_of_required first
  | _ => exact contextFree_of_required done

private theorem Consistent.factorDirectly (whole : G.Consistent) (free : G.ContextFree) :
    G.factorDirectly.Consistent :=
  ⟨wellFormed_factorDirectly whole.fits free, filled_ofTable _ _ _ _⟩

private theorem Consistent.exposed (whole : G.Consistent) (free : G.ContextFree) :
    G.exposed.Consistent :=
  ⟨wellFormed_exposed whole.fits free, filled_ofTable _ _ _ _⟩

private theorem Consistent.factorRound (whole : G.Consistent) (free : G.ContextFree) :
    G.factorRound.Consistent :=
  ((whole.factorDirectly free).exposed (contextFree_withTable G _)).factorDirectly
    (contextFree_withTable _ _)

private theorem Consistent.factorRounds (whole : G.Consistent) (free : G.ContextFree)
    (rounds : Nat) :
    ∃ H, factorRounds rounds G = .ok H ∧ H.Consistent ∧ H.ContextFree := by
  induction rounds generalizing G with
  | zero => exact ⟨G, rfl, whole, free⟩
  | succ rounds ih =>
    rw [factorRounds_succ free]
    split
    · exact ⟨G, rfl, whole, free⟩
    · exact ih (whole.factorRound free) (contextFree_withTable _ _)

private theorem Consistent.withoutImproductive (whole : G.Consistent) (free : G.ContextFree) :
    G.withoutImproductive.Consistent :=
  ⟨wellFormed_withoutImproductive whole.fits free, filled_ofTable _ _ _ _⟩

private theorem Consistent.withoutUnreachable (whole : G.Consistent) (free : G.ContextFree) :
    G.withoutUnreachable.Consistent :=
  ⟨wellFormed_withoutUnreachable whole.fits free, filled_ofTable _ _ _ _⟩

theorem Transformation.exists_result (t : Transformation) (whole : G.Consistent)
    (free : G.ContextFree) : ∃ H, t.apply G = .ok H ∧ H.Consistent ∧ H.ContextFree := by
  have declares := whole.fits.declares_table
  have begins := whole.fits.start_mem
  cases t with
  | removeDirectLeftProduction head =>
    have treated (heads : List Symbol) : (G.withoutDirectRecursion heads).Consistent :=
      (declares.removeDirectRecursions _ heads).consistent begins
    cases head with
    | none => exact ⟨_, free.checked _ _, treated _, contextFree_withTable _ _⟩
    | some head => exact ⟨_, free.checked _ _, treated _, contextFree_withTable _ _⟩
  | removeLeftProduction =>
    have treated := declares.removeRecursionInOrder (.avoiding G.symbols) [] G.table.keys
    exact ⟨_, free.checked _ _, treated.consistent begins, contextFree_withTable _ _⟩
  | directFactorization =>
    exact ⟨_, free.checked _ _, whole.factorDirectly free, contextFree_withTable _ _⟩
  | indirectFactorization =>
    exact ⟨_, indirectFactorization_eq free, (whole.exposed free).factorDirectly
      (contextFree_withTable _ _), contextFree_withTable _ _⟩
  | factorize rounds =>
    obtain ⟨H, done, result⟩ := whole.factorRounds free rounds
    refine ⟨H, ?_, result⟩
    rw [Transformation.apply, Grammar.factorize, requireContextFree_iff.mpr free]
    exact done
  | removeEpsilonProductions =>
    have nonErasing := nonErasing_withoutErasing whole.fits free
    exact ⟨_, free.checked _ _, ⟨nonErasing.wellFormed whole.fits, filled_withoutErasing G⟩,
      nonErasing.free⟩
  | removeUnitProductions =>
    exact ⟨_, free.checked _ _, ⟨wellFormed_withoutUnits whole.fits free, filled_ofTable _ _ _ _⟩,
      contextFree_withTable _ _⟩
  | removeImproductiveSymbols =>
    exact ⟨_, free.checked _ _, whole.withoutImproductive free, contextFree_ofTable _ _ _ _⟩
  | removeUnreachableSymbols =>
    exact ⟨_, free.checked _ _, whole.withoutUnreachable free, contextFree_ofTable _ _ _ _⟩
  | removeUselessSymbols =>
    exact ⟨_, removeUselessSymbols_eq free, (whole.withoutImproductive free).withoutUnreachable
      (contextFree_ofTable _ _ _ _), contextFree_ofTable _ _ _ _⟩

end Transformations

section Origins

/-- A grammar that was built from parts, read from a text, made from an automaton, or made from such
a grammar by transformations. -/
inductive Made : Grammar → Prop
  | parts {nonTerminals terminals : Alphabet} {start : Symbol} {given : List Production}
      {G : Grammar}
      (built : ofProductions nonTerminals terminals start given = .ok G) : Made G
  | text {text : String} {G : Grammar} (read : parse text = .ok G) : Made G
  | automaton {A : Automaton} {G : Grammar} (converted : A.toGrammar = .ok G) : Made G
  | transformed {G H : Grammar} (made : Made G) {t : Transformation}
      (done : t.apply G = .ok H) : Made H

private theorem consistent_of_parse {text : String} (read : parse text = .ok G) : G.Consistent := by
  obtain ⟨_, _, _, _, shown⟩ := parse_eq_ok_iff.mp read
  exact consistent_of_shown shown

private theorem consistent_of_toGrammar {A : Automaton} (converted : A.toGrammar = .ok G) :
    G.Consistent := by
  obtain ⟨_, built⟩ := Automaton.requireDeterministic_bind_eq_ok_iff.mp converted
  split at built
  · split at built
    · exact consistent_of_ofProductions built
    · exact consistent_of_ofProductions built
  · exact consistent_of_ofProductions built

theorem Made.consistent (made : G.Made) : G.Consistent := by
  induction made with
  | parts built => exact consistent_of_ofProductions built
  | text read => exact consistent_of_parse read
  | automaton converted => exact consistent_of_toGrammar converted
  | transformed _ done whole =>
    obtain ⟨H, result, whole', _⟩ :=
      Transformation.exists_result _ whole (Transformation.contextFree_of_apply done)
    rw [done] at result
    exact Except.ok.inj result ▸ whole'

end Origins

end LanguageTheory.Grammar

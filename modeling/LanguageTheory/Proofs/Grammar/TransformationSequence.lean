import LanguageTheory.Proofs.Grammar.Transformation

/-!
Transformations one after the other. A transformation keeps the terminals apart from the
non-terminals, for the symbols it makes are new; the only ones to follow through a table and a pool
are those of the removal of left recursion (`Fenced`). With `Transformation.exists_result`, every
step of a sequence succeeds and its result is fit for the next one.
-/

set_option autoImplicit false
set_option relaxedAutoImplicit false

namespace LanguageTheory.Grammar

variable {G H : Grammar}

section Recursion

variable {table : RuleTable} {pool : SymbolPool}

/-- No head is a terminal, unless it is a non-terminal of the grammar, and the pool gives no
terminal. -/
structure Fenced (G : Grammar) (state : RuleTable × SymbolPool) : Prop where
  keys : ∀ head ∈ state.1.keys, head ∈ G.nonTerminals ∨ head ∉ G.terminals
  used : ∀ symbol ∈ G.terminals, symbol ∈ state.2.used

private theorem ContextFree.fenced (free : G.ContextFree) :
    G.Fenced (G.table, .avoiding G.symbols) where
  keys _ mem := Or.inl (free.key_mem mem)
  used _ mem := mem_symbols_of_terminal mem

private theorem Fenced.disjoint (fenced : G.Fenced (table, pool)) (disjoint : G.Disjoint) :
    (G.withTable table).Disjoint := by
  intro symbol mem
  rcases mem_nonTerminals_ofTable.mp mem with old | head
  · exact disjoint symbol old
  · exact (fenced.keys symbol head).elim (disjoint symbol) id

private theorem Fenced.removeDirectRecursion (fenced : G.Fenced (table, pool)) (head : Symbol) :
    G.Fenced (removeDirectRecursion (table, pool) head) := by
  rcases removeDirectRecursion_eq table pool head with same | ⟨known, _, _, made, _⟩
  · rwa [same]
  · rw [made]
    refine ⟨fun key mem => ?_, fun symbol terminal =>
      List.mem_cons_of_mem _ (fenced.used symbol terminal)⟩
    rcases OrderedTable.mem_keys_insert.mp mem with mem | rfl
    · rcases OrderedTable.mem_keys_insert.mp mem with old | rfl
      · exact fenced.keys key old
      · exact fenced.keys key known
    · exact Or.inr fun terminal => SymbolPool.fresh_not_mem pool (fenced.used _ terminal)

private theorem Fenced.removeDirectRecursions (fenced : G.Fenced (table, pool))
    (heads : List Symbol) :
    G.Fenced (heads.foldl Grammar.removeDirectRecursion (table, pool)) := by
  induction heads generalizing table pool with
  | nil => exact fenced
  | cons head heads ih => exact ih (fenced.removeDirectRecursion head)

private theorem Fenced.substituteAll (fenced : G.Fenced (table, pool)) (later : Symbol)
    (earlier : List Symbol) : G.Fenced (earlier.foldl (substituteLeading later) table, pool) := by
  induction earlier generalizing table with
  | nil => exact fenced
  | cons first earlier ih =>
    refine ih ⟨fun head mem => fenced.keys head ?_, fenced.used⟩
    rwa [keys_substituteLeading] at mem

private theorem Fenced.removeRecursionInOrder (fenced : G.Fenced (table, pool))
    (earlier heads : List Symbol) :
    G.Fenced (removeRecursionInOrder earlier (table, pool) heads) := by
  induction heads generalizing earlier table pool with
  | nil => exact fenced
  | cons later heads ih =>
    exact ih ((fenced.substituteAll later earlier).removeDirectRecursion later) (earlier ++ [later])

end Recursion

section Sequences

private theorem Transformation.disjoint_of_apply {t : Transformation} (done : t.apply G = .ok H)
    (fits : G.WellFormed) (disjoint : G.Disjoint) : H.Disjoint := by
  have free := t.contextFree_of_apply done
  have apart : G.Separated := ⟨fits, free, disjoint⟩
  have run {operation : Operation} {K : Grammar}
      (done : (do G.requireContextFree operation; return K : Except Error Grammar) = .ok H) :
          K = H :=
    Except.ok.inj ((free.checked operation K).symm.trans done)
  cases t with
  | removeDirectLeftProduction head =>
    have treated (heads : List Symbol) : (G.withoutDirectRecursion heads).Disjoint :=
      (free.fenced.removeDirectRecursions heads).disjoint disjoint
    cases head with
    | none => exact run done ▸ treated _
    | some head => exact run done ▸ treated _
  | removeLeftProduction =>
    exact run done ▸ (free.fenced.removeRecursionInOrder [] G.table.keys).disjoint disjoint
  | directFactorization => exact run done ▸ (separated_factorDirectly apart).disjoint
  | indirectFactorization =>
    obtain rfl := Except.ok.inj ((indirectFactorization_eq free).symm.trans done)
    exact (separated_factorDirectly (separated_exposed apart)).disjoint
  | factorize rounds =>
    rw [Transformation.apply, Grammar.factorize, requireContextFree_iff.mpr free] at done
    obtain ⟨K, same, apart', _⟩ := exists_factorRounds apart rounds
    obtain rfl := Except.ok.inj (same.symm.trans done)
    exact apart'.disjoint
  | removeEpsilonProductions =>
    exact run done ▸ ((nonErasing_withoutErasing fits free).separated apart).disjoint
  | removeUnitProductions => exact run done ▸ (separated_withoutUnits apart).disjoint
  | removeImproductiveSymbols => exact run done ▸ (separated_withoutImproductive apart).disjoint
  | removeUnreachableSymbols => exact run done ▸ (separated_withoutUnreachable apart).disjoint
  | removeUselessSymbols =>
    obtain rfl := Except.ok.inj ((removeUselessSymbols_eq free).symm.trans done)
    exact (separated_withoutUnreachable (separated_withoutImproductive apart)).disjoint

def Transformation.results : List Transformation → Grammar → Except Error (List Grammar)
  | [], _ => .ok []
  | t :: ts, G => do
    let H ← t.apply G
    let rest ← results ts H
    return H :: rest

private theorem Transformation.exists_results (ts : List Transformation) (whole : G.Consistent)
    (free : G.ContextFree) : ∃ made, Transformation.results ts G = .ok made ∧
      made.length = ts.length ∧
      ∀ H ∈ made, H.ContextFree ∧ H.Consistent ∧ (G.Disjoint → H.Disjoint) := by
  induction ts generalizing G with
  | nil => exact ⟨[], rfl, rfl, fun H mem => absurd mem List.not_mem_nil⟩
  | cons t ts ih =>
    obtain ⟨K, done, whole', free'⟩ := t.exists_result whole free
    have kept : G.Disjoint → K.Disjoint := disjoint_of_apply done whole.fits
    obtain ⟨made, later, count, sound⟩ := ih whole' free'
    refine ⟨K :: made, ?_, congrArg Nat.succ count,
      List.forall_mem_cons.mpr ⟨⟨free', whole', kept⟩, ?_⟩⟩
    · rw [results, done]
      change (results ts K >>= fun rest => pure (K :: rest)) = _
      rw [later]
      rfl
    · intro H mem
      obtain ⟨free'', whole'', kept'⟩ := sound H mem
      exact ⟨free'', whole'', kept' ∘ kept⟩

private theorem ContextFree.rank_eq (free : G.ContextFree) :
    G.rank = .regular ∨ G.rank = .contextFree := by
  rw [rank, if_pos free]
  split
  · exact Or.inl rfl
  · exact Or.inr rfl

/-- Whatever transformations follow one another on a context-free grammar that was built from its
parts, every step succeeds. Its result is context-free or even regular, its parts fit together,
every head has a body, and terminals stay apart from non-terminals if they were. -/
theorem transformations_sound {nonTerminals terminals : Alphabet} {start : Symbol}
    {given : List Production} (built : ofProductions nonTerminals terminals start given = .ok G)
    (free : G.ContextFree) (ts : List Transformation) :
    ∃ made, Transformation.results ts G = .ok made ∧ made.length = ts.length ∧
      ∀ H ∈ made, (H.rank = .regular ∨ H.rank = .contextFree) ∧ H.Consistent ∧
        (G.Disjoint → H.Disjoint) := by
  obtain ⟨made, done, count, sound⟩ :=
    Transformation.exists_results ts (consistent_of_ofProductions built) free
  refine ⟨made, done, count, fun H mem => ?_⟩
  obtain ⟨free', whole, kept⟩ := sound H mem
  exact ⟨free'.rank_eq, whole, kept⟩

/-- Left recursion goes first; the empty bodies this makes, then unit bodies and useless symbols
follow, and factoring works on what is left. -/
theorem transformations_sound_recursive :
    ∃ G made, ofProductions (OrderedSet.ofList ["S", "A"]) (OrderedSet.ofList ["a", "b"]) "S"
        [⟨["S"], ["A", "b"]⟩, ⟨["A"], ["S", "a"]⟩, ⟨["A"], ["a"]⟩] = .ok G ∧
      G.ContextFree ∧ G.Disjoint ∧
      Transformation.results [.removeLeftProduction, .removeEpsilonProductions,
        .removeUnitProductions, .removeUselessSymbols, .factorize 2] G = .ok made ∧
      made.length = 5 ∧
      ∀ H ∈ made, H.Consistent ∧ H.Disjoint := by
  obtain ⟨G, built, free, disjoint⟩ :
      ∃ G, ofProductions (OrderedSet.ofList ["S", "A"]) (OrderedSet.ofList ["a", "b"]) "S"
        [⟨["S"], ["A", "b"]⟩, ⟨["A"], ["S", "a"]⟩, ⟨["A"], ["a"]⟩] = .ok G ∧
      G.ContextFree ∧ G.Disjoint :=
    ⟨_, rfl, by decide, by decide⟩
  obtain ⟨made, done, count, sound⟩ := transformations_sound built free
    [.removeLeftProduction, .removeEpsilonProductions, .removeUnitProductions,
      .removeUselessSymbols, .factorize 2]
  exact ⟨G, made, built, free, disjoint, done, count, fun H mem =>
    ⟨(sound H mem).2.1, (sound H mem).2.2 disjoint⟩⟩

end Sequences

end LanguageTheory.Grammar

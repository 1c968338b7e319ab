import LanguageTheory.Proofs.Grammar.Simplification

/-!
What is left when useless symbols are removed. A symbol is useful if it stands in a word that the
start symbol derives and that goes on to a word of terminals. All words on such a way consist of
symbols that derive words of terminals, so no production of it is lost with the improductive
symbols, and what is found to be reachable after that is what was useful from the beginning
(`useful_iff`). The other order of the two steps would not do.
-/

set_option autoImplicit false
set_option relaxedAutoImplicit false

namespace LanguageTheory.Grammar

variable {G : Grammar} {symbol : Symbol} {u v word : Word}

/-- The symbol stands in a word on the way from the start symbol to a word of terminals. -/
def Useful (G : Grammar) (symbol : Symbol) : Prop :=
  ∃ before after word, G.IsTerminalWord word ∧ G.Derives [G.start] (before ++ symbol :: after) ∧
    G.Derives (before ++ symbol :: after) word

section Productive

private theorem derives_withoutImproductive (free : G.ContextFree)
    (terminals : G.IsTerminalWord word) (derivation : G.Derives u v) (later : G.Derives v word) :
    G.withoutImproductive.Derives u v := by
  induction derivation with
  | refl => exact .refl
  | tail _ step ih =>
    have first := ih ((Relation.ReflTransGen.single step).trans later)
    obtain ⟨head, body, before, after, member, rfl, rfl⟩ := free.exists_of_step step
    have usable : ∀ other ∈ body, G.Usable other := fun other inside =>
      usable_of_derives free terminals later other
        (List.mem_append_left _ (List.mem_append_right _ inside))
    have kept := Derives.of_production (mem_withoutImproductive.mpr ⟨member, usable⟩)
    exact first.trans ((kept.append_left before).append_right after)

private theorem usable_of_derives_withoutImproductive
    (derivation : G.withoutImproductive.Derives [symbol] v) :
    v = [symbol] ∨ ∀ other ∈ v, G.Usable other := by
  have free : G.withoutImproductive.ContextFree := contextFree_ofTable _ _ _ _
  induction derivation with
  | refl => exact Or.inl rfl
  | tail _ step ih =>
    obtain ⟨head, body, before, after, member, rfl, rfl⟩ := free.exists_of_step step
    have inside := (mem_withoutImproductive.mp member).2
    refine Or.inr ?_
    rcases ih with alone | usable
    · have length := congrArg List.length alone
      simp only [List.length_append, List.length_singleton] at length
      obtain rfl : before = [] := List.length_eq_zero_iff.mp (by omega)
      obtain rfl : after = [] := List.length_eq_zero_iff.mp (by omega)
      simpa using inside
    · simp only [List.forall_mem_append] at usable ⊢
      exact ⟨⟨usable.1.1, inside⟩, usable.2⟩

end Productive

section Useful

private theorem Useful.exists_generates (useful : G.Useful symbol) : ∃ word, G.Generates word := by
  obtain ⟨before, after, word, terminals, derivation, later⟩ := useful
  exact ⟨word, terminals, derivation.trans later⟩

private theorem Useful.productive (useful : G.Useful symbol) (free : G.ContextFree) :
    G.Productive symbol := by
  obtain ⟨before, after, word, terminals, _, later⟩ := useful
  refine (usable_of_derives free terminals later symbol ?_).productive
  exact List.mem_append_right before List.mem_cons_self

theorem useful_iff (fits : G.WellFormed) (free : G.ContextFree) : G.Useful symbol ↔
    symbol ∈ G.withoutImproductive.reachableSymbols ∧ G.Productive symbol := by
  have fits' := wellFormed_withoutImproductive fits free
  have free' : G.withoutImproductive.ContextFree := contextFree_ofTable _ _ _ _
  constructor
  · intro useful
    refine ⟨?_, useful.productive free⟩
    obtain ⟨before, after, word, terminals, derivation, later⟩ := useful
    have kept := derives_withoutImproductive free terminals derivation later
    have start := List.forall_mem_singleton.mpr (start_mem_reachableSymbols fits')
    exact (derives_withoutUnreachable fits' free' start kept).2 symbol
      (List.mem_append_right before List.mem_cons_self)
  · rintro ⟨reached, productive⟩
    obtain ⟨before, after, derivation⟩ := exists_context fits' reached
    have each : ∀ other ∈ before ++ symbol :: after, G.Productive other := by
      rcases usable_of_derives_withoutImproductive derivation with alone | usable
      · -- The start symbol itself: nothing stands beside it.
        have inside : symbol ∈ [G.start] := by
          rw [← show before ++ symbol :: after = [G.start] from alone]
          exact List.mem_append_right before List.mem_cons_self
        obtain rfl := List.mem_singleton.mp inside
        rw [alone]
        exact List.forall_mem_singleton.mpr productive
      · exact fun other inside => (usable other inside).productive
    obtain ⟨word, terminals, later⟩ := exists_terminal_word each
    refine ⟨before, after, word, terminals, ?_, later⟩
    exact derivation.of_productions free' fun _ _ mem =>
      .of_production (mem_withoutImproductive.mp mem).1

private theorem mem_productions_withoutUseless (fits : G.WellFormed) (free : G.ContextFree)
    {p : Production} :
    p ∈ G.withoutImproductive.withoutUnreachable.rules.productions ↔
      p ∈ G.rules.productions ∧ ∀ other ∈ p.head ++ p.body, G.Useful other := by
  have fits' := wellFormed_withoutImproductive fits free
  constructor
  · intro mem
    have free'' : G.withoutImproductive.withoutUnreachable.ContextFree :=
      contextFree_ofTable _ _ _ _
    obtain ⟨head, _, single, production⟩ := free''.exists_head mem
    obtain ⟨kept, reached⟩ := mem_withoutUnreachable.mp production
    obtain ⟨member, usable⟩ := mem_withoutImproductive.mp kept
    have old := mem_table_iff.mp member
    rw [← single] at old
    refine ⟨old, ?_⟩
    rw [single, List.singleton_append, List.forall_mem_cons]
    refine ⟨(useful_iff fits free).mpr ⟨reached, ?_⟩, fun other inside => ?_⟩
    · exact Usable.productive (Or.inr (usable_of_body member usable))
    · exact (useful_iff fits free).mpr
        ⟨reachable_of_body fits' kept reached other inside, (usable other inside).productive⟩
  · rintro ⟨mem, useful⟩
    obtain ⟨head, _, single, member⟩ := free.exists_head mem
    rw [single, List.singleton_append, List.forall_mem_cons] at useful
    have usable (other : Symbol) (inside : other ∈ p.body) : G.Usable other :=
      (usable_iff_productive free).mpr ((useful.2 other inside).productive free)
    have kept := mem_withoutImproductive.mpr ⟨member, usable⟩
    have left := mem_withoutUnreachable.mpr ⟨kept, ((useful_iff fits free).mp useful.1).1⟩
    have whole := mem_table_iff.mp left
    rwa [← single] at whole

private theorem mem_terminals_withoutUseless (fits : G.WellFormed) (free : G.ContextFree) :
    symbol ∈ G.withoutImproductive.withoutUnreachable.terminals ↔
      symbol ∈ G.terminals ∧ G.Useful symbol := by
  rw [mem_terminals_withoutUnreachable, useful_iff fits free]
  refine and_congr_right fun terminal => (and_iff_left ?_).symm
  exact Usable.productive (Or.inl terminal)

private theorem Separated.mem_nonTerminals_withoutUseless (apart : G.Separated)
    (other : symbol ≠ G.start) :
    symbol ∈ G.withoutImproductive.withoutUnreachable.nonTerminals ↔
      symbol ∈ G.nonTerminals ∧ G.Useful symbol := by
  have apart' := separated_withoutImproductive apart
  rw [mem_nonTerminals_withoutUnreachable apart'.free,
    mem_nonTerminals_withoutImproductive apart.free, or_iff_left other,
    useful_iff apart.fits apart.free, and_assoc]
  refine and_congr_right fun known => ?_
  have found : symbol ∈ G.productiveSymbols ↔ G.Productive symbol := by
    rw [← usable_iff_productive apart.free]
    exact (or_iff_right (apart.disjoint symbol known)).symm
  rw [found, and_comm]

end Useful

/-- Removing useless symbols keeps the start symbol and the generated words. Of the other symbols it
keeps exactly the useful ones, and of the productions exactly those that consist of useful symbols;
there are none if nothing is generated. -/
theorem removeUselessSymbols_exact (fits : G.WellFormed) (free : G.ContextFree)
    (disjoint : G.Disjoint) :
    ∃ R, G.removeUselessSymbols = .ok R ∧ R.start = G.start ∧ R.start ∈ R.nonTerminals ∧
      (∀ word, R.Generates word ↔ G.Generates word) ∧
      (∀ symbol, symbol ≠ G.start →
        (symbol ∈ R.nonTerminals ↔ symbol ∈ G.nonTerminals ∧ G.Useful symbol) ∧
        (symbol ∈ R.terminals ↔ symbol ∈ G.terminals ∧ G.Useful symbol)) ∧
      (∀ p, p ∈ R.rules.productions ↔
        p ∈ G.rules.productions ∧ ∀ symbol ∈ p.head ++ p.body, G.Useful symbol) ∧
      ((¬ ∃ word, G.Generates word) → R.rules = .empty) := by
  have apart : G.Separated := ⟨fits, free, disjoint⟩
  have apart' := separated_withoutImproductive apart
  have fits_left := (separated_withoutUnreachable apart').fits
  refine ⟨_, removeUselessSymbols_eq free, rfl, fits_left.start_mem, fun word => ?_,
    fun symbol other => ⟨?_, ?_⟩, fun p => mem_productions_withoutUseless fits free,
    fun nothing => ?_⟩
  · rw [generates_withoutUnreachable_iff apart', generates_withoutImproductive_iff apart]
  · exact apart.mem_nonTerminals_withoutUseless other
  · exact mem_terminals_withoutUseless fits free
  · refine (filled_ofTable _ _ _ _).eq_empty fun p mem => ?_
    obtain ⟨old, useful⟩ := (mem_productions_withoutUseless fits free).mp mem
    obtain ⟨first, rest, head⟩ := List.exists_cons_of_ne_nil (fits.head_ne p old)
    rw [head] at useful
    exact nothing (useful first List.mem_cons_self).exists_generates

/-- The symbol `B` derives no word of terminals, and without its bodies `A` cannot be reached,
although it could before. -/
theorem removeUselessSymbols_exact_order :
    ∃ G R, ofProductions (OrderedSet.ofList ["S", "A", "B"]) (OrderedSet.ofList ["a", "b"]) "S"
        [⟨["S"], ["a"]⟩, ⟨["S"], ["A", "B"]⟩, ⟨["A"], ["a"]⟩, ⟨["B"], ["b", "B"]⟩] = .ok G ∧
      G.WellFormed ∧ G.ContextFree ∧ G.Disjoint ∧ G.removeUselessSymbols = .ok R ∧
      "A" ∈ G.reachableSymbols ∧ "A" ∈ G.productiveSymbols ∧ ¬ G.Useful "A" ∧ ¬ G.Useful "b" ∧
      G.Useful "a" ∧ ¬ R.Generates ["b"] ∧ ⟨["S"], ["a"]⟩ ∈ R.rules.productions := by
  obtain ⟨G, R, built, free, disjoint, result, reached, productive, start, inner, outer, kept, gone,
      left⟩ :
      ∃ G R, ofProductions (OrderedSet.ofList ["S", "A", "B"]) (OrderedSet.ofList ["a", "b"]) "S"
          [⟨["S"], ["a"]⟩, ⟨["S"], ["A", "B"]⟩, ⟨["A"], ["a"]⟩, ⟨["B"], ["b", "B"]⟩] = .ok G ∧
        G.ContextFree ∧ G.Disjoint ∧ G.removeUselessSymbols = .ok R ∧ "A" ∈ G.reachableSymbols ∧
        "A" ∈ G.productiveSymbols ∧ G.start = "S" ∧ "A" ∈ G.nonTerminals ∧ "b" ∈ G.terminals ∧
        "a" ∈ R.terminals ∧ ("A" ∉ R.nonTerminals ∧ "b" ∉ R.terminals) ∧
        ⟨["S"], ["a"]⟩ ∈ R.rules.productions :=
    ⟨_, _, rfl, by decide, by decide, rfl, by decide, by decide, rfl, by decide, by decide,
      by decide, by decide, by decide⟩
  have fits := wellFormed_of_ofProductions built
  obtain ⟨R', result', _, _, _, symbols, _, _⟩ := removeUselessSymbols_exact fits free disjoint
  obtain rfl : R = R' := Except.ok.inj (result.symm.trans result')
  have known (symbol : Symbol) (other : symbol ≠ "S") := symbols symbol (start ▸ other)
  refine ⟨G, R, built, fits, free, disjoint, result, reached, productive, fun useful => ?_,
    fun useful => ?_, ((known "a" (by decide)).2.mp kept).2, fun generated => ?_, left⟩
  · exact gone.1 ((known "A" (by decide)).1.mpr ⟨inner, useful⟩)
  · exact gone.2 ((known "b" (by decide)).2.mpr ⟨outer, useful⟩)
  · exact gone.2 (generated.1 "b" List.mem_cons_self)

end LanguageTheory.Grammar

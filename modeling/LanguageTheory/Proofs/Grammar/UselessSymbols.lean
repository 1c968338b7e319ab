import LanguageTheory.Proofs.Collection.Discovery
import LanguageTheory.Proofs.Grammar.Saturation

/-!
Removing useless symbols. The first step keeps the bodies of usable symbols, from which words of
terminals are derived as before; the second one keeps the heads that can be reached, on which all
derivations from the start symbol depend. What is usable stays so in the second step, because the
words that a reachable symbol derives consist of reachable symbols.
-/

set_option autoImplicit false
set_option relaxedAutoImplicit false

namespace LanguageTheory.Grammar

variable {G : Grammar} {head symbol : Symbol} {body word : Word}

section Improductive

theorem mem_withoutImproductive : (head, body) ∈ G.withoutImproductive.table.productions ↔
    (head, body) ∈ G.table.productions ∧ ∀ other ∈ body, G.Usable other := by
  have test :
      (body.all fun other => decide (other ∈ G.terminals ∨ other ∈ G.productiveSymbols)) = true ↔
      ∀ other ∈ body, G.Usable other := by
    simp only [List.all_eq_true, decide_eq_true_eq, Usable]
  rw [withoutImproductive, mem_table_ofTable, RuleTable.mem_bodies_mapValues]
  simp only [OrderedTable.get?_filter_eq_some_iff, OrderedSet.mem_filter, test, decide_eq_true_eq,
    RuleTable.mem_productions_iff, RuleTable.mem_bodies_iff]
  constructor
  · rintro ⟨bodies, ⟨found, _⟩, mem, all⟩
    exact ⟨⟨bodies, found, mem⟩, all⟩
  · rintro ⟨⟨bodies, found, mem⟩, all⟩
    have production : (head, body) ∈ G.table.productions :=
      RuleTable.mem_productions_iff.mpr (RuleTable.mem_bodies_iff.mpr ⟨bodies, found, mem⟩)
    exact ⟨bodies, ⟨found, usable_of_body production all⟩, mem, all⟩

theorem mem_nonTerminals_withoutImproductive (free : G.ContextFree) :
    symbol ∈ G.withoutImproductive.nonTerminals ↔
      symbol ∈ G.nonTerminals ∧ (symbol ∈ G.productiveSymbols ∨ symbol = G.start) := by
  rw [withoutImproductive, mem_nonTerminals_ofTable, OrderedTable.keys_mapValues,
    OrderedSet.mem_filter, decide_eq_true_eq]
  refine or_iff_left_of_imp fun mem => ?_
  obtain ⟨key, found⟩ := RuleTable.mem_keys_filter.mp mem
  exact ⟨free.key_mem key, Or.inl (of_decide_eq_true found)⟩

theorem wellFormed_withoutImproductive (fits : G.WellFormed) (free : G.ContextFree) :
    G.withoutImproductive.WellFormed := by
  have known (other : Symbol) : other ∈ G.withoutImproductive.nonTerminals ↔
      other ∈ G.nonTerminals ∧ (other ∈ G.productiveSymbols ∨ other = G.start) :=
    mem_nonTerminals_withoutImproductive free
  have begins := (known G.start).mpr ⟨fits.start_mem, Or.inr rfl⟩
  refine (contextFree_ofTable _ _ _ _).wellFormed begins ?_
  intro head body mem other inside
  obtain ⟨old, all⟩ := mem_withoutImproductive.mp mem
  constructor
  · rcases all other inside with terminal | productive
    · exact Or.inr terminal
    · refine (fits.body_declared old inside).imp_left fun inner => ?_
      exact (known other).mpr ⟨inner, Or.inl productive⟩
  · rintro rfl
    exact fits.body_visible old inside

theorem separated_withoutImproductive (apart : G.Separated) : G.withoutImproductive.Separated :=
  ⟨wellFormed_withoutImproductive apart.fits apart.free, contextFree_ofTable _ _ _ _,
    fun other mem terminal =>
      apart.disjoint other ((mem_nonTerminals_withoutImproductive apart.free).mp mem).1 terminal⟩

private theorem derives_withoutImproductive_iff (free : G.ContextFree)
    (terminals : G.IsTerminalWord word) {u : Word} :
    G.withoutImproductive.Derives u word ↔ G.Derives u word := by
  constructor
  · refine Derives.of_productions (contextFree_ofTable _ _ _ _) fun head body mem => ?_
    exact .of_production (mem_withoutImproductive.mp mem).1
  · intro derivation
    -- A body is kept only if its symbols are usable, so this is carried along with the derivation.
    have spelled : Spelled (fun other v => G.Usable other ∧ G.withoutImproductive.Derives [other] v)
        u word := by
      refine Spelled.of_derives free (fun head body mem v spelled => ?_) derivation
        (spelled_self fun other mem => ⟨Or.inl (terminals other mem), .refl⟩)
      have all := spelled.forall fun _ _ means => means.1
      have kept := Derives.of_production (mem_withoutImproductive.mpr ⟨mem, all⟩)
      exact ⟨Or.inr (usable_of_body mem all),
        kept.trans (spelled.derives fun _ _ _ means => means.2)⟩
    exact spelled.derives fun _ _ _ means => means.2

theorem generates_withoutImproductive_iff (apart : G.Separated) (word : Word) :
    G.withoutImproductive.Generates word ↔ G.Generates word :=
  and_congr_right fun terminals => derives_withoutImproductive_iff apart.free terminals

theorem productive_withoutImproductive (free : G.ContextFree)
    (mem : symbol ∈ G.withoutImproductive.nonTerminals) (other : symbol ≠ G.start) :
    G.withoutImproductive.Productive symbol := by
  obtain ⟨_, found⟩ := (mem_nonTerminals_withoutImproductive free).mp mem
  obtain ⟨word, terminals, derivation⟩ := Usable.productive (Or.inr (found.resolve_right other))
  exact ⟨word, terminals, (derives_withoutImproductive_iff free terminals).mpr derivation⟩

end Improductive

section Unreachable

def Uses (G : Grammar) (head other : Symbol) : Prop :=
  ∃ body, (head, body) ∈ G.table.productions ∧ other ∈ body

private theorem mem_uses {other : Symbol} :
    other ∈ (G.table.bodies head).flatten ↔ G.Uses head other := by
  simp only [List.mem_flatten, mem_bodies_table_iff, Uses]

private theorem mem_reachableSymbols_iff (fits : G.WellFormed) :
    symbol ∈ G.reachableSymbols ↔ Relation.ReflTransGen G.Uses G.start symbol := by
  have few : G.symbols.toFinset.card ≤ G.symbols.length + 1 :=
    G.symbols.toFinset_card_le.trans (Nat.le_succ _)
  have found : symbol ∈ G.reachableSymbols ↔ ∃ start ∈ [G.start], Relation.ReflTransGen
      (fun x y => y ∈ (G.table.bodies x).flatten) start symbol := by
    refine Discovery.mem_reached_iff G.symbols.toFinset few ?_ ?_
    · exact List.forall_mem_singleton.mpr
        (List.mem_toFinset.mpr (mem_symbols_of_nonTerminal fits.start_mem))
    · intro head _ other mem
      obtain ⟨body, production, inside⟩ := mem_uses.mp mem
      exact List.mem_toFinset.mpr (fits.body_mem_symbols production other inside)
  simp only [mem_uses] at found
  rw [found]
  simp

theorem start_mem_reachableSymbols (fits : G.WellFormed) : G.start ∈ G.reachableSymbols :=
  (mem_reachableSymbols_iff fits).mpr .refl

theorem reachable_of_body (fits : G.WellFormed) (mem : (head, body) ∈ G.table.productions)
    (reached : head ∈ G.reachableSymbols) : ∀ other ∈ body, other ∈ G.reachableSymbols := by
  intro other inside
  rw [mem_reachableSymbols_iff fits] at reached ⊢
  exact reached.tail ⟨body, mem, inside⟩

theorem exists_context (fits : G.WellFormed) (reached : symbol ∈ G.reachableSymbols) :
    ∃ before after, G.Derives [G.start] (before ++ symbol :: after) := by
  have way := (mem_reachableSymbols_iff fits).mp reached
  induction way with
  | refl => exact ⟨[], [], .refl⟩
  | @tail head other way uses ih =>
    obtain ⟨before, after, derivation⟩ := ih ((mem_reachableSymbols_iff fits).mpr way)
    obtain ⟨body, mem, inside⟩ := uses
    obtain ⟨front, back, rfl⟩ := List.append_of_mem inside
    refine ⟨before ++ front, back ++ after, ?_⟩
    have step := ((Derives.of_production mem).append_right after).append_left before
    have whole := derivation.trans step
    rwa [List.append_assoc, List.cons_append, ← List.append_assoc] at whole

theorem mem_withoutUnreachable : (head, body) ∈ G.withoutUnreachable.table.productions ↔
    (head, body) ∈ G.table.productions ∧ head ∈ G.reachableSymbols := by
  rw [withoutUnreachable, mem_table_ofTable, RuleTable.mem_productions_iff,
    RuleTable.mem_bodies_iff, RuleTable.mem_bodies_iff]
  simp only [OrderedTable.get?_filter_eq_some_iff, decide_eq_true_eq, and_right_comm,
    exists_and_right]

theorem mem_nonTerminals_withoutUnreachable (free : G.ContextFree) :
    symbol ∈ G.withoutUnreachable.nonTerminals ↔
      symbol ∈ G.nonTerminals ∧ symbol ∈ G.reachableSymbols := by
  rw [withoutUnreachable, mem_nonTerminals_ofTable, OrderedSet.mem_filter, decide_eq_true_eq]
  refine or_iff_left_of_imp fun mem => ?_
  obtain ⟨key, reached⟩ := RuleTable.mem_keys_filter.mp mem
  exact ⟨free.key_mem key, of_decide_eq_true reached⟩

theorem mem_terminals_withoutUnreachable : symbol ∈ G.withoutUnreachable.terminals ↔
    symbol ∈ G.terminals ∧ symbol ∈ G.reachableSymbols :=
  OrderedSet.mem_filter.trans (and_congr_right fun _ => decide_eq_true_iff)

theorem wellFormed_withoutUnreachable (fits : G.WellFormed) (free : G.ContextFree) :
    G.withoutUnreachable.WellFormed := by
  have known (other : Symbol) : other ∈ G.withoutUnreachable.nonTerminals ↔
      other ∈ G.nonTerminals ∧ other ∈ G.reachableSymbols :=
    mem_nonTerminals_withoutUnreachable free
  have begins := (known G.start).mpr ⟨fits.start_mem, start_mem_reachableSymbols fits⟩
  refine (contextFree_ofTable _ _ _ _).wellFormed begins ?_
  intro head body mem other inside
  obtain ⟨old, reached⟩ := mem_withoutUnreachable.mp mem
  have found := reachable_of_body fits old reached other inside
  refine ⟨(fits.body_declared old inside).imp (fun h => (known other).mpr ⟨h, found⟩)
    fun h => mem_terminals_withoutUnreachable.mpr ⟨h, found⟩, ?_⟩
  rintro rfl
  exact fits.body_visible old inside

theorem separated_withoutUnreachable (apart : G.Separated) : G.withoutUnreachable.Separated :=
  ⟨wellFormed_withoutUnreachable apart.fits apart.free, contextFree_ofTable _ _ _ _,
    fun other mem terminal => apart.disjoint other
      ((mem_nonTerminals_withoutUnreachable apart.free).mp mem).1
      (mem_terminals_withoutUnreachable.mp terminal).1⟩

theorem derives_withoutUnreachable (fits : G.WellFormed) (free : G.ContextFree) {u v : Word}
    (reached : ∀ other ∈ u, other ∈ G.reachableSymbols) (derivation : G.Derives u v) :
    G.withoutUnreachable.Derives u v ∧ ∀ other ∈ v, other ∈ G.reachableSymbols := by
  induction derivation with
  | refl => exact ⟨.refl, reached⟩
  | tail _ step ih =>
    obtain ⟨head, body, before, after, member, rfl, rfl⟩ := free.exists_of_step step
    obtain ⟨derived, all⟩ := ih
    obtain ⟨left, later⟩ := List.forall_mem_append.mp all
    obtain ⟨first, here⟩ := List.forall_mem_append.mp left
    have now := List.forall_mem_singleton.mp here
    have kept := Derives.of_production (mem_withoutUnreachable.mpr ⟨member, now⟩)
    refine ⟨derived.trans ((kept.append_left before).append_right after), ?_⟩
    exact List.forall_mem_append.mpr
      ⟨List.forall_mem_append.mpr ⟨first, reachable_of_body fits member now⟩, later⟩

private theorem derives_of_withoutUnreachable {u v : Word}
    (derivation : G.withoutUnreachable.Derives u v) :
    G.Derives u v :=
  derivation.of_productions (contextFree_ofTable _ _ _ _) fun _ _ mem =>
    .of_production (mem_withoutUnreachable.mp mem).1

theorem generates_withoutUnreachable_iff (apart : G.Separated) (word : Word) :
    G.withoutUnreachable.Generates word ↔ G.Generates word := by
  constructor
  · rintro ⟨terminals, derivation⟩
    exact ⟨fun other mem => (mem_terminals_withoutUnreachable.mp (terminals other mem)).1,
      derives_of_withoutUnreachable derivation⟩
  · rintro ⟨terminals, derivation⟩
    obtain ⟨derived, all⟩ := derives_withoutUnreachable apart.fits apart.free
      (List.forall_mem_singleton.mpr (start_mem_reachableSymbols apart.fits)) derivation
    exact ⟨fun other mem => mem_terminals_withoutUnreachable.mpr
      ⟨terminals other mem, all other mem⟩, derived⟩

theorem productive_withoutUnreachable (apart : G.Separated) (reached : symbol ∈ G.reachableSymbols)
    (productive : G.Productive symbol) : G.withoutUnreachable.Productive symbol := by
  obtain ⟨word, terminals, derivation⟩ := productive
  obtain ⟨derived, all⟩ := derives_withoutUnreachable apart.fits apart.free
    (List.forall_mem_singleton.mpr reached) derivation
  exact ⟨word,
    fun other mem => mem_terminals_withoutUnreachable.mpr ⟨terminals other mem, all other mem⟩,
    derived⟩

theorem exists_context_withoutUnreachable (apart : G.Separated)
    (mem : symbol ∈ G.withoutUnreachable.symbols) :
    ∃ before after, G.withoutUnreachable.Derives [G.start] (before ++ symbol :: after) := by
  have reached : symbol ∈ G.reachableSymbols := by
    rcases List.mem_append.mp mem with inner | terminal
    · exact ((mem_nonTerminals_withoutUnreachable apart.free).mp inner).2
    · exact (mem_terminals_withoutUnreachable.mp terminal).2
  obtain ⟨before, after, derivation⟩ := exists_context apart.fits reached
  have start := List.forall_mem_singleton.mpr (start_mem_reachableSymbols apart.fits)
  exact ⟨before, after, (derives_withoutUnreachable apart.fits apart.free start derivation).1⟩

end Unreachable

end LanguageTheory.Grammar

import LanguageTheory.Proofs.Grammar.First

/-!
What the FOLLOW sets hold. They are closed under the productions: what the rest of a body begins
with follows the symbol before it, and if the rest vanishes, so does what follows the head
(`WellFormed.followSets_closed`). The end marker follows the start symbol.
-/

set_option autoImplicit false
set_option relaxedAutoImplicit false

namespace LanguageTheory.Grammar

open SymbolSets

variable {G : Grammar}

private theorem mem_occurrencesIn {firsts : SymbolSets} {head : Symbol} {body : Word}
    {o : Occurrence} :
    o ∈ G.occurrencesIn firsts head body ↔ ∃ before rest, body = before ++ o.symbol :: rest ∧
      o.symbol ∈ G.nonTerminals ∧ o.head = head ∧ o.first = G.firstOfWord firsts rest := by
  induction body with
  | nil => simp [occurrencesIn]
  | cons symbol body ih =>
    have split : (∃ before rest, symbol :: body = before ++ o.symbol :: rest ∧
        o.symbol ∈ G.nonTerminals ∧ o.head = head ∧ o.first = G.firstOfWord firsts rest) ↔
        (symbol ∈ G.nonTerminals ∧ o = ⟨symbol, head, G.firstOfWord firsts body⟩) ∨
          o ∈ G.occurrencesIn firsts head body := by
      rw [ih]
      constructor
      · rintro ⟨_ | ⟨first, before⟩, rest, same, known, rfl, content⟩
        · obtain ⟨rfl, rfl⟩ := List.cons.inj same
          exact Or.inl ⟨known, by rw [← content]⟩
        · obtain ⟨rfl, rfl⟩ := List.cons.inj same
          exact Or.inr ⟨before, rest, rfl, known, rfl, content⟩
      · rintro (⟨known, rfl⟩ | ⟨before, rest, rfl, known, same, content⟩)
        · exact ⟨[], body, rfl, known, rfl, rfl⟩
        · exact ⟨symbol :: before, rest, rfl, known, same, content⟩
    rw [split, occurrencesIn]
    by_cases known : symbol ∈ G.nonTerminals
    · rw [if_pos known, List.mem_cons, and_iff_right known]
    · rw [if_neg known]
      exact ⟨Or.inr, fun h => h.resolve_left fun h => known h.1⟩

theorem mem_demand {o : Occurrence} {follows : SymbolSets} {a : Symbol} : a ∈ o.demand follows ↔
    (a ∈ o.first ∧ a ≠ Symbol.epsilon) ∨ (Symbol.epsilon ∈ o.first ∧ a ∈ follows.of o.head) := by
  unfold Occurrence.demand
  by_cases erasable : Symbol.epsilon ∈ o.first
  · rw [if_pos erasable, SortedSet.mem_union, mem_visible, and_iff_right erasable]
  · rw [if_neg erasable]
    constructor
    · exact fun mem => Or.inl ⟨mem, fun h => erasable (h ▸ mem)⟩
    · exact fun h => (h.resolve_right fun h => erasable h.1).1

def occurrences (G : Grammar) : List Occurrence :=
  G.table.productions.flatMap fun p => G.occurrencesIn G.firstSets p.1 p.2

theorem mem_occurrences {o : Occurrence} : o ∈ G.occurrences ↔ ∃ before rest,
    (o.head, before ++ o.symbol :: rest) ∈ G.table.productions ∧ o.symbol ∈ G.nonTerminals ∧
      o.first = G.firstOfWord G.firstSets rest := by
  simp only [occurrences, List.mem_flatMap, mem_occurrencesIn]
  constructor
  · rintro ⟨p, mem, before, rest, same, known, head, content⟩
    exact ⟨before, rest, by rwa [head, ← same], known, content⟩
  · rintro ⟨before, rest, mem, known, content⟩
    exact ⟨_, mem, before, rest, rfl, known, rfl, content⟩

def followDemands (G : Grammar) : List Demand := G.occurrences.map fun o => (o.symbol, o.demand)

def followStart (G : Grammar) : SymbolSets :=
  G.emptySets.extend G.start (.singleton Symbol.endOfInput)

theorem followSets_eq (G : Grammar) :
    G.followSets = stabilize (sweep G.followDemands) G.setCapacity G.followStart := by
  have rounds : sweep G.followDemands = followRound G.occurrences := by
    funext sets
    rw [sweep, followDemands, List.foldl_map]
    rfl
  rw [rounds]
  rfl

theorem mem_followStart (fits : G.WellFormed) {symbol a : Symbol} :
    a ∈ G.followStart.of symbol ↔ symbol = G.start ∧ a = Symbol.endOfInput := by
  have known : G.start ∈ G.emptySets.keys := by
    rw [keys_emptySets]
    exact fits.start_mem
  rw [followStart, mem_extend, SortedSet.mem_singleton, and_iff_right known]
  exact ⟨fun h => h.resolve_left (not_mem_emptySets symbol a), Or.inr⟩

private theorem confined_followStart (fits : G.WellFormed) :
    Confined G.nonTerminals.toList G.setSymbols G.followStart := by
  refine ⟨keys_extend.trans G.keys_emptySets, fun symbol a mem => ?_⟩
  obtain ⟨_, rfl⟩ := (mem_followStart fits).mp mem
  exact List.mem_cons_of_mem _ List.mem_cons_self

theorem WellFormed.rest_visible (fits : G.WellFormed) {head symbol : Symbol} {before rest : Word}
    (mem : (head, before ++ symbol :: rest) ∈ G.table.productions) : Symbol.epsilon ∉ rest := by
  intro member
  exact fits.body_visible mem (List.mem_append_right _ (List.mem_cons_of_mem symbol member))

private theorem modest_followDemands (fits : G.WellFormed) :
    Modest G.nonTerminals.toList G.setSymbols G.followDemands := by
  intro d hd sets confined a mem
  obtain ⟨o, ho, rfl⟩ := List.mem_map.mp hd
  obtain ⟨before, rest, production, _, content⟩ := mem_occurrences.mp ho
  rcases mem_demand.mp mem with ⟨member, _⟩ | ⟨_, member⟩
  · rw [content] at member
    refine mem_setSymbols_of_firstOfWord fits.confined_firstSets
      (fits.rest_visible production) ?_ member
    intro symbol inside
    exact fits.body_declared production
      (List.mem_append_right _ (List.mem_cons_of_mem _ inside))
  · exact confined.2 _ a member

theorem WellFormed.confined_followSets (fits : G.WellFormed) :
    Confined G.nonTerminals.toList G.setSymbols G.followSets := by
  rw [followSets_eq]
  exact (confined_followStart fits).stabilize (modest_followDemands fits) _

theorem WellFormed.followSets_closed (fits : G.WellFormed) (free : G.ContextFree)
    {head symbol : Symbol} {before rest : Word}
    (mem : (head, before ++ symbol :: rest) ∈ G.table.productions)
    (inside : symbol ∈ G.nonTerminals) {a : Symbol}
    (follows : G.Begins a rest ∨ ((∀ other ∈ rest, G.Vanishes other) ∧ a ∈ G.followSets.of head)) :
    a ∈ G.followSets.of symbol := by
  have occurs : ⟨symbol, head, G.firstOfWord G.firstSets rest⟩ ∈ G.occurrences :=
    mem_occurrences.mpr ⟨before, rest, mem, inside, rfl⟩
  have met : G.followSets.Meets
      (symbol, (Occurrence.mk symbol head (G.firstOfWord G.firstSets rest)).demand) := by
    rw [followSets_eq]
    exact (confined_followStart fits).meets_stabilize (modest_followDemands fits) G.lt_setCapacity _
      (List.mem_map.mpr ⟨_, occurs, rfl⟩)
  have unseen := fits.rest_visible mem
  refine met ?_ a (mem_demand.mpr ?_)
  · rw [fits.confined_followSets.1]
    exact inside
  · rw [fits.mem_firstOfWord_iff free unseen, fits.mem_firstOfWord_iff free unseen]
    rcases follows with begins | ⟨all, member⟩
    · have other : a ≠ Symbol.epsilon := by
        rintro rfl
        exact fits.not_begins_epsilon unseen begins
      exact Or.inl ⟨Or.inr ⟨other, begins⟩, other⟩
    · exact Or.inr ⟨Or.inl ⟨rfl, all⟩, member⟩

theorem WellFormed.endOfInput_mem_followSets (fits : G.WellFormed) :
    Symbol.endOfInput ∈ G.followSets.of G.start := by
  rw [followSets_eq]
  refine stabilize_induction (P := fun s : SymbolSets => Symbol.endOfInput ∈ s.of G.start) ?_ _ ?_
  · exact fun sets mem => below_sweep.subset _ _ mem
  · exact (mem_followStart fits).mpr ⟨rfl, rfl⟩

end LanguageTheory.Grammar

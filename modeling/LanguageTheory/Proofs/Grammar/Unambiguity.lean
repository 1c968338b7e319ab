import LanguageTheory.Proofs.Grammar.LeftCorner
import LanguageTheory.Proofs.Grammar.Recognizer

/-!
What a predictive table rules out. The lookahead decides every step of a leftmost derivation, so a
word has at most one (`Predicts.leftmost_unique`). If every non-terminal is of use, none lies on a
cycle of left corners: the tree that shows what a symbol of the cycle leads to, or how it vanishes,
would contain a lower one for the next symbol of the cycle. So no non-terminal is left recursive.
-/

set_option autoImplicit false
set_option relaxedAutoImplicit false

namespace LanguageTheory

namespace Grammar

variable {G : Grammar}

private theorem Yields.of_append (free : G.ContextFree) {before stack word : Word}
    (outside : ∀ symbol ∈ before, symbol ∉ G.nonTerminals)
    (yields : G.Yields (before ++ stack) word) :
    ∃ rest, word = before ++ rest ∧ G.Yields stack rest := by
  induction before generalizing word with
  | nil => exact ⟨word, rfl, yields⟩
  | cons symbol before ih =>
    rw [List.forall_mem_cons] at outside
    cases yields with
    | keep _ later =>
      obtain ⟨rest, rfl, yields⟩ := ih outside.2 later
      exact ⟨rest, rfl, yields⟩
    | expand member _ => exact absurd (free.head_mem member) outside.1

private theorem eq_of_first_nonTerminal {before before' after after' : Word} {head head' : Symbol}
    (outside : ∀ symbol ∈ before, symbol ∉ G.nonTerminals)
    (outside' : ∀ symbol ∈ before', symbol ∉ G.nonTerminals) (known : head ∈ G.nonTerminals)
    (known' : head' ∈ G.nonTerminals)
    (same : before ++ head :: after = before' ++ head' :: after') :
    before = before' ∧ head = head' ∧ after = after' := by
  rcases split_trichotomy same with equal | ⟨middle, rfl, _⟩ | ⟨middle, rfl, _⟩
  · exact equal
  · exact absurd known (outside' head (by simp))
  · exact absurd known' (outside head' (by simp))

private theorem leftmostDerivation_iff {used : List Production} {u word : Word} :
    G.LeftmostDerivation used u word ↔ (used = [] ∧ u = word) ∨
      ∃ p later before after, used = p :: later ∧ u = before ++ p.head ++ after ∧
        p ∈ G.rules.productions ∧ G.IsTerminalWord before ∧
        G.LeftmostDerivation later (before ++ p.body ++ after) word := by
  constructor
  · intro derivation
    cases derivation with
    | done => exact Or.inl ⟨rfl, rfl⟩
    | step member terminals rest => exact Or.inr ⟨_, _, _, _, rfl, rfl, member, terminals, rest⟩
  · rintro (⟨rfl, rfl⟩ | ⟨p, later, before, after, rfl, rfl, member, terminals, rest⟩)
    · exact .done u
    · exact .step member terminals rest

section Useful

def AllReachable (G : Grammar) : Prop :=
  ∀ symbol ∈ G.nonTerminals, ∃ before after, G.Derives [G.start] (before ++ symbol :: after)

def AllProductive (G : Grammar) : Prop :=
  ∀ symbol ∈ G.nonTerminals, ∃ word, G.IsTerminalWord word ∧ G.Derives [symbol] word

private theorem AllProductive.leads_or_vanishes (productive : G.AllProductive)
    (free : G.ContextFree) (disjoint : G.Disjoint) (symbol : Symbol) :
    (∃ t, G.Leads t symbol) ∨ G.Vanishes symbol := by
  by_cases known : symbol ∈ G.nonTerminals
  · obtain ⟨word, terminals, derivation⟩ := productive symbol known
    have yields := (derives_iff_yields free).mp derivation
    cases word with
    | nil => exact Or.inr (yields.vanishes symbol (List.mem_singleton_self symbol))
    | cons t word =>
      have begins := yields.begins (disjoint.outside terminals t List.mem_cons_self)
      exact Or.inl ⟨t, begins.resolve_right fun h => h.2⟩
  · exact Or.inl ⟨symbol, leads_iff.mpr (Or.inl ⟨rfl, known⟩)⟩

private theorem AllProductive.begins_or_vanishes (productive : G.AllProductive)
    (free : G.ContextFree) (disjoint : G.Disjoint) (word : Word) :
    (∃ t, G.Begins t word) ∨ ∀ symbol ∈ word, G.Vanishes symbol := by
  induction word with
  | nil => exact Or.inr fun symbol mem => absurd mem List.not_mem_nil
  | cons symbol rest ih =>
    rcases productive.leads_or_vanishes free disjoint symbol with ⟨t, lead⟩ | vanish
    · exact Or.inl ⟨t, Or.inl lead⟩
    · rcases ih with ⟨t, begins⟩ | all
      · exact Or.inl ⟨t, Or.inr ⟨vanish, begins⟩⟩
      · exact Or.inr (List.forall_mem_cons.mpr ⟨vanish, all⟩)

/-- Something follows each non-terminal of a derived word: what the rest of its body begins with, or
what follows the head of the body. -/
private theorem AllProductive.exists_follows (productive : G.AllProductive) (fits : G.WellFormed)
    (free : G.ContextFree) (disjoint : G.Disjoint) {word : Word}
    (derivation : G.Derives [G.start] word) :
    ∀ symbol ∈ word, symbol ∈ G.nonTerminals → ∃ t, t ∈ G.followSets.of symbol := by
  induction derivation with
  | refl =>
    intro symbol mem _
    rw [List.mem_singleton.mp mem]
    exact ⟨Symbol.endOfInput, fits.endOfInput_mem_followSets⟩
  | tail _ step ih =>
    obtain ⟨p, member, before, after, rfl, rfl⟩ := step
    obtain ⟨head, known, single, production⟩ := free.exists_head member
    rw [single] at ih
    intro symbol mem inside
    rcases List.mem_append.mp mem with mem | mem
    · rcases List.mem_append.mp mem with mem | mem
      · exact ih symbol (by simp [mem]) inside
      · obtain ⟨front, rest, shape⟩ := List.append_of_mem mem
        rw [shape] at production
        rcases productive.begins_or_vanishes free disjoint rest with ⟨t, begins⟩ | all
        · exact ⟨t, fits.followSets_closed free production inside (Or.inl begins)⟩
        · obtain ⟨t, follows⟩ := ih head (by simp) known
          exact ⟨t, fits.followSets_closed free production inside (Or.inr ⟨all, follows⟩)⟩
    · exact ih symbol (by simp [mem]) inside

end Useful

end Grammar

namespace PredictiveTable

open Grammar

variable {T : PredictiveTable} {G : Grammar}

section Leftmost

private theorem covered_append_iff {before rest : Word}
    (outside : ∀ symbol ∈ before, symbol ∉ G.nonTerminals) :
    Covered G (before ++ rest) ↔ Covered G rest := by
  induction before with
  | nil => rfl
  | cons symbol before ih =>
    rw [List.forall_mem_cons] at outside
    rw [List.cons_append, Covered, ih outside.2]
    exact and_iff_right fun known => absurd known outside.1

private theorem Predicts.body?_of_leftmost (predicts : T.Predicts G)
    (unmarked : Symbol.endOfInput ∉ G.nonTerminals) {head : Symbol} {body before after word : Word}
    (mem : (head, body) ∈ G.table.productions)
    (outside : ∀ symbol ∈ before, symbol ∉ G.nonTerminals)
    (final : ∀ symbol ∈ word, symbol ∉ G.nonTerminals)
    (covered : Covered G (head :: after ++ [Symbol.endOfInput]))
    (derivation : G.Derives (before ++ body ++ after) word) :
    ∃ rest, word = before ++ rest ∧
      T.body? head (marked (head :: after) rest).lookahead = some body := by
  have yields := (derives_iff_yields predicts.free).mp derivation
  rw [List.append_assoc] at yields
  obtain ⟨rest, rfl, later⟩ := yields.of_append predicts.free outside
  exact ⟨rest, rfl, predicts.body?_of_yields unmarked mem later (List.forall_mem_append.mp final).2
    covered⟩

theorem Predicts.leftmost_unique (predicts : T.Predicts G) (disjoint : G.Disjoint)
    (unmarked : Symbol.endOfInput ∉ G.nonTerminals) {used used' : List Production} {u word : Word}
    (covered : Covered G (u ++ [Symbol.endOfInput])) (terminals : G.IsTerminalWord word)
    (first : G.LeftmostDerivation used u word) (second : G.LeftmostDerivation used' u word) :
    used = used' := by
  have final := disjoint.outside terminals
  induction first generalizing used' with
  | done word =>
    rcases leftmostDerivation_iff.mp second with ⟨rfl, _⟩ |
    ⟨p, _, before, after, _, whole, member, _⟩
    · rfl
    · obtain ⟨head, known, single, _⟩ := predicts.free.exists_head member
      rw [single] at whole
      exact absurd known (final head (by simp [whole]))
  | @step p used before after word member front rest ih =>
    obtain ⟨head, known, single, mem⟩ := predicts.free.exists_head member
    have outside := disjoint.outside front
    have below : Covered G (head :: after ++ [Symbol.endOfInput]) := by
      rw [single, List.append_assoc, List.append_assoc] at covered
      exact (covered_append_iff outside).mp covered
    rcases leftmostDerivation_iff.mp second with
      ⟨_, same⟩ | ⟨q, later, before', after', rfl, whole, member', front', rest'⟩
    · rw [single] at same
      exact absurd known (final head (by simp [← same]))
    · obtain ⟨head', known', single', mem'⟩ := predicts.free.exists_head member'
      have shape : before ++ head :: after = before' ++ head' :: after' := by
        rw [single, single'] at whole
        simpa using whole
      obtain ⟨rfl, rfl, rfl⟩ :=
        eq_of_first_nonTerminal outside (disjoint.outside front') known known' shape
      obtain ⟨tail, split, found⟩ :=
        predicts.body?_of_leftmost unmarked mem outside final below rest.derives
      obtain ⟨tail', split', found'⟩ :=
        predicts.body?_of_leftmost unmarked mem' outside final below rest'.derives
      obtain rfl : tail = tail' := List.append_cancel_left (split.symm.trans split')
      obtain rfl : p = q := by
        have bodies : p.body = q.body := Option.some.inj (found.symm.trans found')
        have heads : p.head = q.head := single.trans single'.symm
        cases p
        cases q
        cases bodies
        cases heads
        rfl
      have covered' : Covered G (before ++ p.body ++ after ++ [Symbol.endOfInput]) := by
        have expanded := predicts.covered_expand mem below
        rw [List.append_assoc, List.append_assoc]
        exact (covered_append_iff outside).mpr expanded
      rw [ih covered' terminals rest' final]

end Leftmost

section Corners

private theorem leads_of_leftCorner {head corner t : Symbol} (edge : G.LeftCorner head corner)
    (lead : G.Leads t corner) : G.Leads t head := by
  obtain ⟨before, after, mem, all⟩ := edge
  have begins : G.Begins t (before ++ corner :: after) :=
    fronted_append.mpr (Or.inr ⟨all, Or.inl lead⟩)
  exact leads_iff.mpr (Or.inr ⟨_, mem, begins⟩)

private theorem leads_of_corners {head corner t : Symbol}
    (way : Relation.ReflTransGen G.LeftCorner head corner) (lead : G.Leads t corner) :
    G.Leads t head := by
  induction way using Relation.ReflTransGen.head_induction_on with
  | refl => exact lead
  | head edge _ ih => exact leads_of_leftCorner edge ih

private theorem Predicts.not_leads_of_begins (predicts : T.Predicts G)
    {head symbol leader t : Symbol} {before middle after : Word}
    (mem : (head, before ++ symbol :: (middle ++ leader :: after)) ∈ G.table.productions)
    (vanish : G.Vanishes symbol) (all : ∀ other ∈ middle, G.Vanishes other)
    (lead : G.Leads t leader) : ¬ G.Leads t symbol := by
  apply predicts.not_leads_of_follows vanish
  apply predicts.fits.followSets_closed predicts.free mem (vanish.mem predicts.free)
  exact Or.inl (fronted_append.mpr (Or.inr ⟨all, Or.inl lead⟩))

private theorem Predicts.leadsWithin_corner (predicts : T.Predicts G) {head corner t : Symbol}
    {height : Nat} {before after : Word}
    (mem : (head, before ++ corner :: after) ∈ G.table.productions)
    (all : ∀ symbol ∈ before, G.Vanishes symbol) (lead : G.Leads t corner)
    (fronted : Fronted G.Vanishes (G.LeadsWithin t height) (before ++ corner :: after)) :
    G.LeadsWithin t height corner := by
  obtain ⟨front, leader, back, shape, vanish, within⟩ := fronted_iff_split.mp fronted
  rcases split_trichotomy shape with ⟨_, rfl, _⟩ | ⟨middle, rfl, rfl⟩ | ⟨middle, rfl, rfl⟩
  · exact within
  · rw [List.forall_mem_append, List.forall_mem_cons] at vanish
    exact absurd lead (predicts.not_leads_of_begins mem vanish.2.1 vanish.2.2 ⟨height, within⟩)
  · rw [List.forall_mem_append, List.forall_mem_cons] at all
    rw [List.append_assoc, List.cons_append] at mem
    exact absurd ⟨height, within⟩ (predicts.not_leads_of_begins mem all.2.1 all.2.2 lead)

private theorem Predicts.no_cycle_of_leads (predicts : T.Predicts G) {symbol t : Symbol}
    {height : Nat} (within : G.LeadsWithin t height symbol) :
    ¬ Relation.TransGen G.LeftCorner symbol symbol := by
  intro cycle
  induction height generalizing symbol with
  | zero =>
    obtain ⟨_, ⟨_, _, mem, _⟩, _⟩ := Relation.TransGen.head'_iff.mp cycle
    exact within.2 (predicts.free.head_mem mem)
  | succ height ih =>
    obtain ⟨corner, edge, way⟩ := Relation.TransGen.head'_iff.mp cycle
    obtain ⟨before, after, mem, all⟩ := id edge
    have lead : G.Leads t corner := leads_of_corners way ⟨height + 1, within⟩
    have begins : G.Begins t (before ++ corner :: after) :=
      fronted_append.mpr (Or.inr ⟨all, Or.inl lead⟩)
    -- Both bodies begin with `t`, and the table has one for `t`: the cycle uses the lowest tree.
    obtain ⟨body, mem', fronted⟩ := within
    have begins' : G.Begins t body := begins_iff_exists_height.mpr ⟨height, fronted⟩
    obtain rfl := predicts.claims_unique ⟨mem, Or.inl begins⟩ ⟨mem', Or.inl begins'⟩
    exact ih (predicts.leadsWithin_corner mem all lead fronted) (.tail' way edge)

/-- A cycle through a symbol that leads nowhere consists of symbols that vanish, and the bodies of
the cycle are those by which they vanish. -/
private theorem Predicts.no_cycle_of_vanishes (predicts : T.Predicts G)
    (productive : G.AllProductive) (disjoint : G.Disjoint) {symbol t : Symbol} {height : Nat}
    (within : G.VanishesWithin height symbol) (mute : ∀ a, ¬ G.Leads a symbol)
    (follows : t ∈ G.followSets.of symbol) : ¬ Relation.TransGen G.LeftCorner symbol symbol := by
  intro cycle
  induction height generalizing symbol with
  | zero => exact within
  | succ height ih =>
    obtain ⟨corner, edge, way⟩ := Relation.TransGen.head'_iff.mp cycle
    obtain ⟨before, after, mem, all⟩ := id edge
    have mute_corner (a : Symbol) (lead : G.Leads a corner) : False :=
      mute a (leads_of_leftCorner edge lead)
    have vanish : G.Vanishes corner :=
      (productive.leads_or_vanishes predicts.free disjoint corner).resolve_left
        fun ⟨a, lead⟩ => mute_corner a lead
    have all_after : ∀ other ∈ after, G.Vanishes other := by
      refine (productive.begins_or_vanishes predicts.free disjoint after).resolve_left ?_
      rintro ⟨a, begins⟩
      have whole : G.Begins a (before ++ corner :: after) :=
        fronted_append.mpr (Or.inr ⟨all, Or.inr ⟨vanish, begins⟩⟩)
      exact mute a (leads_iff.mpr (Or.inr ⟨_, mem, whole⟩))
    have whole : ∀ other ∈ before ++ corner :: after, G.Vanishes other :=
      List.forall_mem_append.mpr ⟨all, List.forall_mem_cons.mpr ⟨vanish, all_after⟩⟩
    obtain ⟨body, mem', lower⟩ := within
    obtain rfl := predicts.claims_unique ⟨mem, Or.inr ⟨whole, follows⟩⟩
      ⟨mem', Or.inr ⟨fun other member => ⟨height, lower other member⟩, follows⟩⟩
    have follows_corner : t ∈ G.followSets.of corner := predicts.fits.followSets_closed
      predicts.free mem (vanish.mem predicts.free) (Or.inr ⟨all_after, follows⟩)
    exact ih (lower corner (by simp)) mute_corner follows_corner (.tail' way edge)

private theorem Predicts.not_leftRecursive (predicts : T.Predicts G) (disjoint : G.Disjoint)
    (reachable : G.AllReachable) (productive : G.AllProductive) (symbol : Symbol) :
    ¬ G.LeftRecursive symbol := by
  intro recursive
  have cycle := recursive.cycle predicts.free
  by_cases lead : ∃ t, G.Leads t symbol
  · obtain ⟨t, height, within⟩ := lead
    exact predicts.no_cycle_of_leads within cycle
  · obtain ⟨height, within⟩ :=
      (productive.leads_or_vanishes predicts.free disjoint symbol).resolve_left lead
    have known := Vanishes.mem predicts.free ⟨height, within⟩
    obtain ⟨before, after, derivation⟩ := reachable symbol known
    obtain ⟨t, follows⟩ := productive.exists_follows predicts.fits predicts.free disjoint derivation
      symbol (by simp) known
    exact predicts.no_cycle_of_vanishes productive disjoint within
      (not_exists.mp lead) follows cycle

end Corners

end PredictiveTable

namespace Grammar

open PredictiveTable

/-- If a grammar has a predictive table, every word of terminals has at most one leftmost
derivation; and if moreover every non-terminal can be reached from the start symbol and derives some
word of terminals, no symbol derives a word that begins with the symbol itself. -/
theorem predictive_grammar_unambiguous {G : Grammar} {T : PredictiveTable} (fits : G.WellFormed)
    (disjoint : G.Disjoint) (unmarked : Symbol.endOfInput ∉ G.nonTerminals)
    (built : G.predictiveTable = .ok T) :
    (∀ word, G.IsTerminalWord word → ∀ used used', G.LeftmostDerivation used [G.start] word →
      G.LeftmostDerivation used' [G.start] word → used = used') ∧
    (G.AllReachable → G.AllProductive → ∀ symbol, ¬ G.LeftRecursive symbol) := by
  obtain ⟨predicts, _⟩ := predicts_of_predictiveTable fits built
  refine ⟨fun word terminals used used' first second => ?_, predicts.not_leftRecursive disjoint⟩
  exact predicts.leftmost_unique disjoint unmarked (predicts.covered_start unmarked) terminals first
    second

theorem predictive_grammar_unambiguous_erasing_front :
    ∃ G T, ofProductions (OrderedSet.ofList ["S", "A"]) (OrderedSet.ofList ["a", "b"]) "S"
        [⟨["S"], ["A", "b", "S"]⟩, ⟨["S"], []⟩, ⟨["A"], ["a"]⟩, ⟨["A"], []⟩] = .ok G ∧
      G.WellFormed ∧ G.Disjoint ∧ Symbol.endOfInput ∉ G.nonTerminals ∧ G.predictiveTable = .ok T ∧
      G.AllReachable ∧ G.AllProductive ∧ ¬ G.LeftRecursive "A" ∧
      ∃ used, G.LeftmostDerivation used ["S"] ["b"] ∧
        ∀ used', G.LeftmostDerivation used' ["S"] ["b"] → used' = used := by
  obtain ⟨G, T, accepted, table, disjoint, unmarked, start, names, word, first, second, third⟩ :
      ∃ G T, ofProductions (OrderedSet.ofList ["S", "A"]) (OrderedSet.ofList ["a", "b"]) "S"
          [⟨["S"], ["A", "b", "S"]⟩, ⟨["S"], []⟩, ⟨["A"], ["a"]⟩, ⟨["A"], []⟩] = .ok G ∧
        G.predictiveTable = .ok T ∧ G.Disjoint ∧ Symbol.endOfInput ∉ G.nonTerminals ∧
        G.start = "S" ∧ (∀ symbol ∈ G.nonTerminals.toList, symbol = "S" ∨ symbol = "A") ∧
        (∀ symbol ∈ ["b"], symbol ∈ G.terminals) ∧
        ⟨["S"], ["A", "b", "S"]⟩ ∈ G.rules.productions ∧ ⟨["A"], []⟩ ∈ G.rules.productions ∧
        ⟨["S"], []⟩ ∈ G.rules.productions :=
    ⟨_, _, rfl, rfl, by decide, by decide, rfl, by decide, by decide, by decide, by decide,
      by decide⟩
  have fits := wellFormed_of_ofProductions accepted
  have empty : G.IsTerminalWord [] := fun _ none => absurd none List.not_mem_nil
  have reachable : G.AllReachable := by
    intro symbol mem
    rw [start]
    rcases names symbol mem with rfl | rfl
    · exact ⟨[], [], .refl⟩
    · exact ⟨[], ["b", "S"], .single (.of_mem first)⟩
  have productive : G.AllProductive := by
    intro symbol mem
    refine ⟨[], empty, ?_⟩
    rcases names symbol mem with rfl | rfl
    · exact .single (.of_mem third)
    · exact .single (.of_mem second)
  have last : G.LeftmostDerivation [⟨["S"], []⟩] (["b"] ++ ["S"] ++ []) ["b"] :=
    .step third word (.done _)
  have middle : G.LeftmostDerivation _ ([] ++ ["A"] ++ ["b", "S"]) ["b"] := .step second empty last
  have derivation : G.LeftmostDerivation _ ([] ++ ["S"] ++ []) ["b"] := .step first empty middle
  obtain ⟨unique, straight⟩ := predictive_grammar_unambiguous fits disjoint unmarked table
  rw [start] at unique
  exact ⟨G, T, accepted, fits, disjoint, unmarked, table, reachable, productive,
    straight reachable productive "A", _, derivation,
    fun used' other => unique ["b"] word used' _ other derivation⟩

end Grammar

end LanguageTheory

import LanguageTheory.Grammar.PredictiveTable
import LanguageTheory.Proofs.Grammar.Follow

/-!
What the predictive table says. A body claims a terminal for its head if it begins with the
terminal, or vanishes while the terminal follows the head; a table without conflicts holds exactly
the claims (`predicts_of_predictiveTable`). One consequence carries the termination of the
recognizer: what follows a symbol that vanishes is not what the symbol leads to
(`Predicts.not_leads_of_follows`).
-/

set_option autoImplicit false
set_option relaxedAutoImplicit false

namespace LanguageTheory

namespace Grammar

open SymbolSets

variable {G : Grammar}

def Claims (G : Grammar) (head t : Symbol) (body : Word) : Prop :=
  (head, body) ∈ G.table.productions ∧ (G.Begins t body ∨
    ((∀ symbol ∈ body, G.Vanishes symbol) ∧ t ∈ G.followSets.of head))

private theorem WellFormed.mem_lookaheads_iff (fits : G.WellFormed) (free : G.ContextFree)
    {head t : Symbol} {body : Word} (mem : (head, body) ∈ G.table.productions) :
    t ∈ G.lookaheads G.firstSets G.followSets head body ↔ G.Begins t body ∨
      ((∀ symbol ∈ body, G.Vanishes symbol) ∧ t ∈ G.followSets.of head) := by
  have unseen := fits.body_visible mem
  have erasable : Symbol.epsilon ∈ G.firstOfWord G.firstSets body ↔
      ∀ symbol ∈ body, G.Vanishes symbol := by
    rw [fits.mem_firstOfWord_iff free unseen]
    exact ⟨fun h => (h.resolve_right fun h => h.1 rfl).2, fun all => Or.inl ⟨rfl, all⟩⟩
  have begins : t ∈ Grammar.visible (G.firstOfWord G.firstSets body) ↔ G.Begins t body := by
    rw [mem_visible, fits.mem_firstOfWord_iff free unseen]
    constructor
    · exact fun h => (h.1.resolve_left fun same => h.2 same.1).2
    · intro begins
      have other : t ≠ Symbol.epsilon := by
        rintro rfl
        exact fits.not_begins_epsilon unseen begins
      exact ⟨Or.inr ⟨other, begins⟩, other⟩
  rw [lookaheads, List.mem_append, SortedSet.mem_toList, begins]
  refine or_congr_right ?_
  by_cases vanish : Symbol.epsilon ∈ G.firstOfWord G.firstSets body
  · rw [if_pos vanish, SortedSet.mem_toList, and_iff_right (erasable.mp vanish)]
  · rw [if_neg vanish]
    exact ⟨fun mem => absurd mem List.not_mem_nil, fun h => absurd (erasable.mpr h.1) vanish⟩

theorem WellFormed.mem_claims_iff (fits : G.WellFormed) (free : G.ContextFree) {head t : Symbol}
    {body : Word} :
    ((head, t), body) ∈ G.claims G.firstSets G.followSets ↔ G.Claims head t body := by
  rw [claims, List.mem_flatMap, Claims]
  constructor
  · rintro ⟨p, mem, claimed⟩
    obtain ⟨_, lookahead, same⟩ := List.mem_map.mp claimed
    cases same
    exact ⟨mem, (fits.mem_lookaheads_iff free mem).mp lookahead⟩
  · rintro ⟨mem, claimed⟩
    exact ⟨_, mem, List.mem_map.mpr ⟨t, (fits.mem_lookaheads_iff free mem).mpr claimed, rfl⟩⟩

private theorem get?_fillCells {cells filled : OrderedTable Cell Word} {claims : List (Cell × Word)}
    (accepted : fillCells cells claims = .ok filled) (cell : Cell) (body : Word) :
    filled.get? cell = some body ↔ cells.get? cell = some body ∨ (cell, body) ∈ claims := by
  induction claims generalizing cells with
  | nil =>
    obtain rfl := Except.ok.inj accepted
    simp
  | cons claim claims ih =>
    obtain ⟨claimed, wanted⟩ := claim
    rw [List.mem_cons, Prod.mk.injEq]
    unfold fillCells at accepted
    split at accepted
    · rename_i free
      rw [ih accepted, OrderedTable.get?_insert]
      by_cases same : cell = claimed
      · subst same
        rw [if_pos rfl, free, Option.some.injEq]
        simp [eq_comm]
      · simp [same]
    · rename_i existing taken
      split at accepted
      · rename_i agree
        subst agree
        rw [ih accepted]
        constructor
        · exact fun h => h.imp_right Or.inr
        · rintro (old | ⟨rfl, rfl⟩ | later)
          · exact Or.inl old
          · exact Or.inl taken
          · exact Or.inr later
      · cases accepted

theorem predictiveTable_eq (unmarked : Symbol.endOfInput ∉ G.terminals) (free : G.ContextFree) :
    G.predictiveTable = (fillCells .empty (G.claims G.firstSets G.followSets)).map
      fun cells => ⟨G.start, G.nonTerminals, cells⟩ := by
  rw [predictiveTable, if_neg unmarked, firsts, follows, requireContextFree_iff.mpr free]
  rfl

theorem contextFree_of_predictiveTable {T : PredictiveTable} (built : G.predictiveTable = .ok T) :
    G.ContextFree := by
  rw [predictiveTable] at built
  split at built
  · cases built
  · unfold firsts at built
    cases required : G.requireContextFree .firsts with
    | error e =>
      rw [required] at built
      cases built
    | ok => exact requireContextFree_iff.mp required

end Grammar

namespace PredictiveTable

open Grammar

/-- The table belongs to a context-free grammar: its cells are what the bodies claim. -/
structure Predicts (T : PredictiveTable) (G : Grammar) : Prop where
  fits : G.WellFormed
  free : G.ContextFree
  start : T.start = G.start
  nonTerminals : T.nonTerminals = G.nonTerminals
  body_iff : ∀ {head t : Symbol} {body : Word},
    T.body? head t = some body ↔ G.Claims head t body

variable {T : PredictiveTable} {G : Grammar}

theorem predicts_of_predictiveTable (fits : G.WellFormed) (built : G.predictiveTable = .ok T) :
    T.Predicts G ∧ Symbol.endOfInput ∉ G.terminals := by
  have unmarked : Symbol.endOfInput ∉ G.terminals := by
    intro marked
    rw [predictiveTable, if_pos marked] at built
    cases built
  have free := contextFree_of_predictiveTable built
  rw [predictiveTable_eq unmarked free] at built
  cases accepted : fillCells .empty (G.claims G.firstSets G.followSets) with
  | error e =>
    rw [accepted] at built
    cases built
  | ok cells =>
    rw [accepted] at built
    obtain rfl := Except.ok.inj built
    refine ⟨⟨fits, free, rfl, rfl, ?_⟩, unmarked⟩
    intro head t body
    rw [body?, get?_fillCells accepted, fits.mem_claims_iff free]
    exact ⟨fun h => h.resolve_left (by simp), Or.inr⟩

theorem Predicts.claims_unique (predicts : T.Predicts G) {head t : Symbol} {body other : Word}
    (claimed : G.Claims head t body) (claimed' : G.Claims head t other) : body = other := by
  have found := predicts.body_iff.mpr claimed
  have found' := predicts.body_iff.mpr claimed'
  exact Option.some.inj (found.symm.trans found')

/-- What follows a symbol that vanishes is not what the symbol leads to. Otherwise the body that
vanishes would be the one that leads there, and so on down to a terminal that vanishes. -/
theorem Predicts.not_leads_of_follows (predicts : T.Predicts G) {symbol t : Symbol}
    (vanish : G.Vanishes symbol) (follows : t ∈ G.followSets.of symbol) : ¬ G.Leads t symbol := by
  rintro ⟨height, lead⟩
  induction height generalizing symbol with
  | zero => exact lead.2 (vanish.mem predicts.free)
  | succ height ih =>
    obtain ⟨body, mem, fronted⟩ := lead
    obtain ⟨other, mem', all⟩ := vanishes_iff.mp vanish
    have begins : G.Begins t body := begins_iff_exists_height.mpr ⟨height, fronted⟩
    obtain rfl := predicts.claims_unique ⟨mem, Or.inl begins⟩ ⟨mem', Or.inr ⟨all, follows⟩⟩
    -- Down the body to the symbol that leads; all of the body vanishes.
    clear begins vanish mem'
    suffices down : ∀ before rest, body = before ++ rest →
        Fronted G.Vanishes (G.LeadsWithin t height) rest → False from down [] body rfl fronted
    intro before rest whole fronted
    induction rest generalizing before with
    | nil => exact fronted
    | cons next rest down =>
      rcases fronted with lead | ⟨_, later⟩
      · have vanish := all next (by rw [whole]; simp)
        refine ih vanish ?_ lead
        apply predicts.fits.followSets_closed predicts.free (whole ▸ mem) (vanish.mem predicts.free)
        refine Or.inr ⟨fun other member => all other ?_, follows⟩
        rw [whole]
        exact List.mem_append_right _ (List.mem_cons_of_mem next member)
      · exact down (before ++ [next]) (by simp [whole]) later

end PredictiveTable

end LanguageTheory

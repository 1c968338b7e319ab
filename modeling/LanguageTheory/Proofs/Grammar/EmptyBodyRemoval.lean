import LanguageTheory.Proofs.Grammar.Simplification

/-!
Removing empty bodies once is enough. In a grammar where only the start symbol has an empty body,
and is then in no body, the start symbol is the only one that can vanish. No body contains it, so
every body is its own only erasure, and the removal gives back the productions that are there.
-/

set_option autoImplicit false
set_option relaxedAutoImplicit false

namespace LanguageTheory.Grammar

variable {G R : Grammar} {head : Symbol} {source body : Word}

section Stable

private theorem EmptyOnlyAtStart.vanishes (only : G.EmptyOnlyAtStart) (free : G.ContextFree)
    {symbol : Symbol} (vanish : G.Vanishes symbol) :
    symbol = G.start ∧ (G.start, []) ∈ G.table.productions := by
  have empty := free.emptyOnlyAtStart_iff.mp only
  obtain ⟨height, within⟩ := vanish
  induction height generalizing symbol with
  | zero => exact within.elim
  | succ height ih =>
    obtain ⟨body, mem, all⟩ := within
    cases body with
    | nil =>
      obtain ⟨rfl, _⟩ := empty symbol mem
      exact ⟨rfl, mem⟩
    | cons first rest =>
      -- The first symbol would be the start symbol, which no body contains if it has an empty one.
      obtain ⟨rfl, erased⟩ := ih (all first List.mem_cons_self)
      exact absurd List.mem_cons_self ((empty _ erased).2 symbol _ mem)

private theorem EmptyOnlyAtStart.not_vanishes (only : G.EmptyOnlyAtStart) (free : G.ContextFree)
    (mem : (head, source) ∈ G.table.productions) : ∀ symbol ∈ source, ¬ G.Vanishes symbol := by
  intro symbol inside vanish
  obtain ⟨rfl, erased⟩ := only.vanishes free vanish
  exact (free.emptyOnlyAtStart_iff.mp only _ erased).2 head source mem inside

private theorem NonErasing.start_eq (nonErasing : G.NonErasing R) (free : G.ContextFree)
    (only : G.EmptyOnlyAtStart) : R.start = G.start := by
  rcases nonErasing.begins with same | ⟨new, _, leads, head, source, mem, inside⟩
  · exact same
  · rcases nonErasing.origin _ _ leads with ⟨_, _, old, _⟩ | ⟨_, vanish, _⟩
    · exact absurd (mem_symbols_of_nonTerminal (free.head_mem old)) new
    · exact absurd vanish (only.not_vanishes free mem G.start inside)

private theorem NonErasing.mem_productions_iff (nonErasing : G.NonErasing R) (fits : G.WellFormed)
    (free : G.ContextFree) (only : G.EmptyOnlyAtStart) :
    (head, body) ∈ R.table.productions ↔ (head, body) ∈ G.table.productions := by
  have start := nonErasing.start_eq free only
  constructor
  · intro mem
    rcases nonErasing.origin head body mem with
      ⟨_, source, old, erasure⟩ | ⟨rfl, vanish, rfl | ⟨new, _⟩⟩
    · rwa [erasure.eq_of_forall_not (only.not_vanishes free old)]
    · rw [start]
      exact (only.vanishes free vanish).2
    · exact absurd (start ▸ mem_symbols_of_nonTerminal fits.start_mem) new
  · intro mem
    by_cases empty : body = []
    · subst empty
      obtain ⟨rfl, _⟩ := free.emptyOnlyAtStart_iff.mp only head mem
      rw [← start]
      exact (nonErasing.erases (vanishes_iff.mpr ⟨[], mem, by simp⟩)).1
    · exact nonErasing.covers head body body mem (.refl body) empty

private theorem ContextFree.mem_productions_of_table (free : G.ContextFree)
    (kept : ∀ head body, (head, body) ∈ G.table.productions → (head, body) ∈ R.table.productions)
    {p : Production} (mem : p ∈ G.rules.productions) : p ∈ R.rules.productions := by
  obtain ⟨head, _, single, production⟩ := free.exists_head mem
  have moved := mem_table_iff.mp (kept head p.body production)
  rwa [← single] at moved

private theorem same_withoutErasing (consistent : G.Consistent) (free : G.ContextFree)
    (only : G.EmptyOnlyAtStart) : G.withoutErasing.Same G := by
  have fits := consistent.fits
  have nonErasing := nonErasing_withoutErasing fits free
  have start := nonErasing.start_eq free only
  refine ⟨OrderedSet.same_iff.mpr fun symbol => ?_, ?_, start, ?_⟩
  · rw [nonErasing.mem_nonTerminals, start]
    exact or_iff_right_of_imp fun same => same ▸ fits.start_mem
  · rw [nonErasing.terminals]
    exact OrderedSet.same_iff.mpr fun symbol => Iff.rfl
  · refine Rules.same_of_mem_productions_iff (filled_withoutErasing G) consistent.filled fun p => ?_
    exact ⟨nonErasing.free.mem_productions_of_table fun _ _ =>
        (nonErasing.mem_productions_iff fits free only).mp,
      free.mem_productions_of_table fun _ _ => (nonErasing.mem_productions_iff fits free only).mpr⟩

end Stable

/-- Empty bodies can be removed from every context-free grammar whose symbols are of one kind each:
the words stay, only the start symbol may have an empty body and is then in no body, and removing
empty bodies once more gives an equal grammar. -/
theorem removeEpsilonProductions_exact (fits : G.WellFormed) (free : G.ContextFree)
    (disjoint : G.Disjoint) :
    ∃ H, G.removeEpsilonProductions = .ok H ∧ (∀ word, H.Generates word ↔ G.Generates word) ∧
      H.EmptyOnlyAtStart ∧ ∃ K, H.removeEpsilonProductions = .ok K ∧ K.Same H := by
  have nonErasing := nonErasing_withoutErasing fits free
  have only := nonErasing.emptyOnlyAtStart
  refine ⟨_, removeEpsilonProductions_eq free, nonErasing.generates_iff ⟨fits, free, disjoint⟩,
    only, _, removeEpsilonProductions_eq nonErasing.free, ?_⟩
  exact same_withoutErasing ⟨nonErasing.wellFormed fits, filled_withoutErasing G⟩
    nonErasing.free only

/-- The start symbol of the grammar vanishes and is in a body, so that another start symbol takes
its place. -/
theorem removeEpsilonProductions_exact_nested :
    ∃ G H K, ofProductions (OrderedSet.ofList ["S"]) (OrderedSet.ofList ["a", "b"]) "S"
        [⟨["S"], ["a", "S", "b", "S"]⟩, ⟨["S"], []⟩] = .ok G ∧
      G.WellFormed ∧ G.ContextFree ∧ G.Disjoint ∧ G.removeEpsilonProductions = .ok H ∧
      H.start ≠ G.start ∧ H.Generates [] ∧ H.EmptyOnlyAtStart ∧ H.removeEpsilonProductions = .ok K ∧
      K.Same H := by
  obtain ⟨G, H, built, free, disjoint, first, renamed, start, production⟩ :
      ∃ G H, ofProductions (OrderedSet.ofList ["S"]) (OrderedSet.ofList ["a", "b"]) "S"
          [⟨["S"], ["a", "S", "b", "S"]⟩, ⟨["S"], []⟩] = .ok G ∧
        G.ContextFree ∧ G.Disjoint ∧ G.removeEpsilonProductions = .ok H ∧ H.start ≠ G.start ∧
        G.start = "S" ∧ ⟨["S"], []⟩ ∈ G.rules.productions :=
    ⟨_, _, rfl, by decide, by decide, rfl, by decide, rfl, by decide⟩
  have fits := wellFormed_of_ofProductions built
  obtain ⟨H', first', generated, only, K, again, same⟩ :=
    removeEpsilonProductions_exact fits free disjoint
  obtain rfl : H = H' := Except.ok.inj (first.symm.trans first')
  have derivation : G.Derives [G.start] [] := by
    rw [start]
    exact .single (Step.of_mem production)
  exact ⟨G, H, K, built, fits, free, disjoint, first, renamed,
    (generated _).mpr ⟨fun symbol mem => absurd mem List.not_mem_nil, derivation⟩, only,
    again, same⟩

end LanguageTheory.Grammar

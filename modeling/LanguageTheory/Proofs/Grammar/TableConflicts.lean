import LanguageTheory.Proofs.Grammar.Lookahead
import LanguageTheory.Proofs.Grammar.PredictiveTable

/-!
When the predictive table of a grammar exists. A body is selected for a lookahead if a word derived
from it begins with the lookahead, or if it vanishes in front of the lookahead. The table exists
exactly if no two bodies of one non-terminal are selected for the same lookahead, it then holds the
selections, and otherwise the error names two such bodies (`predictiveTable_exact`). The loop that
fills the cells is described by its two results: what the filled table holds (`get?_fillCells`) and
what a refusal shows (`exists_clash_of_fillCells`).
-/

set_option autoImplicit false
set_option relaxedAutoImplicit false

namespace LanguageTheory.Grammar

variable {G : Grammar} {follows : SymbolSets} {head t : Symbol} {body other : Word}

/-- The body of the head is selected by the lookahead: it derives a word that begins with the
lookahead, or the empty word in front of what follows the head. -/
def Selects (G : Grammar) (follows : SymbolSets) (head t : Symbol) (body : Word) : Prop :=
  ⟨[head], body⟩ ∈ G.rules.productions ∧
    ((t ∈ G.terminals ∧ ∃ rest, G.Derives body (t :: rest)) ∨
      (G.Derives body [] ∧ t ∈ follows.of head))

structure Conflict (G : Grammar) (follows : SymbolSets) (head t : Symbol) (body other : Word) :
    Prop where
  selects : G.Selects follows head t body
  selects_other : G.Selects follows head t other
  ne : body ≠ other

private theorem WellFormed.claims_iff_selects (fits : G.WellFormed) (free : G.ContextFree)
    (disjoint : G.Disjoint) : G.Claims head t body ↔ G.Selects G.followSets head t body := by
  rw [Claims, Selects, ← mem_table_iff]
  refine and_congr_right fun mem => ?_
  rw [fits.begins_iff free disjoint (fits.body_mem_symbols mem), derives_nil_iff free]

theorem exists_clash_of_fillCells {cells : OrderedTable Cell Word} {claims : List (Cell × Word)}
    {e : Error} (refused : fillCells cells claims = .error e) : ∃ cell existing body,
      e = .tableConflict cell.1 cell.2 existing body ∧ existing ≠ body ∧ (cell, body) ∈ claims ∧
      (cells.get? cell = some existing ∨ (cell, existing) ∈ claims) := by
  induction claims generalizing cells with
  | nil => cases refused
  | cons claim claims ih =>
    obtain ⟨claimed, wanted⟩ := claim
    unfold fillCells at refused
    split at refused
    · obtain ⟨cell, existing, body, rfl, different, mem, old⟩ := ih refused
      refine ⟨cell, existing, body, rfl, different, List.mem_cons_of_mem _ mem, ?_⟩
      rw [OrderedTable.get?_insert] at old
      rcases old with old | later
      · split at old
        · rename_i same
          obtain rfl := Option.some.inj old
          exact Or.inr (same ▸ List.mem_cons_self)
        · exact Or.inl old
      · exact Or.inr (List.mem_cons_of_mem _ later)
    · rename_i existing taken
      split at refused
      · obtain ⟨cell, existing, body, rfl, different, mem, old⟩ := ih refused
        exact ⟨cell, existing, body, rfl, different, List.mem_cons_of_mem _ mem,
          old.imp_right (List.mem_cons_of_mem _)⟩
      · rename_i different
        obtain rfl := Except.error.inj refused
        exact ⟨claimed, existing, wanted, rfl, different, List.mem_cons_self, Or.inl taken⟩

private theorem WellFormed.exists_conflict_of_error (fits : G.WellFormed) (free : G.ContextFree)
    (disjoint : G.Disjoint) (unmarked : Symbol.endOfInput ∉ G.terminals) {e : Error}
    (refused : G.predictiveTable = .error e) : ∃ head t body other,
      e = .tableConflict head t body other ∧ G.Conflict G.followSets head t body other := by
  rw [predictiveTable_eq unmarked free] at refused
  cases outcome : fillCells .empty (G.claims G.firstSets G.followSets) with
  | ok cells =>
    rw [outcome] at refused
    cases refused
  | error clash =>
    rw [outcome] at refused
    obtain rfl := Except.error.inj refused
    obtain ⟨⟨head, t⟩, existing, body, rfl, different, mem, old⟩ :=
      exists_clash_of_fillCells outcome
    have earlier := old.resolve_left (by simp)
    rw [fits.mem_claims_iff free, fits.claims_iff_selects free disjoint] at mem earlier
    exact ⟨head, t, existing, body, rfl, earlier, mem, different⟩

private theorem WellFormed.body?_eq_some_iff (fits : G.WellFormed) (disjoint : G.Disjoint)
    {T : PredictiveTable} (built : G.predictiveTable = .ok T) :
    T.body? head t = some body ↔ G.Selects G.followSets head t body := by
  obtain ⟨predicts, _⟩ := PredictiveTable.predicts_of_predictiveTable fits built
  rw [predicts.body_iff, fits.claims_iff_selects predicts.free disjoint]

/-- The predictive table exists exactly if no lookahead selects two bodies of a non-terminal; it
holds the selections, and a refusal names two bodies that one lookahead selects. -/
theorem predictiveTable_exact (fits : G.WellFormed) (free : G.ContextFree) (disjoint : G.Disjoint)
    (unmarked : Symbol.endOfInput ∉ G.terminals) :
    ∃ follows, G.follows = .ok follows ∧
      ((∃ T, G.predictiveTable = .ok T) ↔
        ¬ ∃ head t body other, G.Conflict follows head t body other) ∧
      (∀ T, G.predictiveTable = .ok T → ∀ head t body,
        T.body? head t = some body ↔ G.Selects follows head t body) ∧
      ∀ e, G.predictiveTable = .error e → ∃ head t body other,
        e = .tableConflict head t body other ∧ G.Conflict follows head t body other ∧
        e.message = "LL(1) conflict at (" ++ head ++ ", " ++ t ++ "): `" ++ body.text ++
          "` and `" ++ other.text ++ "`" := by
  refine ⟨G.followSets, follows_eq free, ⟨?_, fun agree => ?_⟩, ?_, fun e refused => ?_⟩
  · rintro ⟨T, built⟩ ⟨head, t, body, other, conflict⟩
    have found := (fits.body?_eq_some_iff disjoint built).mpr conflict.selects
    have found' := (fits.body?_eq_some_iff disjoint built).mpr conflict.selects_other
    exact conflict.ne (Option.some.inj (found.symm.trans found'))
  · cases outcome : G.predictiveTable with
    | ok T => exact ⟨T, rfl⟩
    | error e =>
      obtain ⟨head, t, body, other, _, conflict⟩ :=
        fits.exists_conflict_of_error free disjoint unmarked outcome
      exact absurd ⟨head, t, body, other, conflict⟩ agree
  · exact fun T built head t body => fits.body?_eq_some_iff disjoint built
  · obtain ⟨head, t, body, other, rfl, conflict⟩ :=
      fits.exists_conflict_of_error free disjoint unmarked refused
    exact ⟨head, t, body, other, rfl, conflict, rfl⟩

/-- `A` can be read as `a` or be left out in front of `a`. -/
theorem predictiveTable_exact_erasable_body :
    ∃ G follows, ofProductions (OrderedSet.ofList ["S", "A"]) (OrderedSet.ofList ["a"]) "S"
        [⟨["S"], ["A", "a"]⟩, ⟨["A"], ["a"]⟩, ⟨["A"], []⟩] = .ok G ∧
      G.WellFormed ∧ G.ContextFree ∧ G.Disjoint ∧ Symbol.endOfInput ∉ G.terminals ∧
      G.follows = .ok follows ∧ G.Conflict follows "A" "a" ["a"] [] ∧
      G.predictiveTable = .error (.tableConflict "A" "a" ["a"] []) := by
  obtain ⟨G, built, free, disjoint, unmarked, refused⟩ :
      ∃ G, ofProductions (OrderedSet.ofList ["S", "A"]) (OrderedSet.ofList ["a"]) "S"
          [⟨["S"], ["A", "a"]⟩, ⟨["A"], ["a"]⟩, ⟨["A"], []⟩] = .ok G ∧
        G.ContextFree ∧ G.Disjoint ∧ Symbol.endOfInput ∉ G.terminals ∧
        G.predictiveTable = .error (.tableConflict "A" "a" ["a"] []) :=
    ⟨_, rfl, by decide, by decide, by decide, rfl⟩
  have fits := wellFormed_of_ofProductions built
  obtain ⟨follows, computed, _, _, clash⟩ := predictiveTable_exact fits free disjoint unmarked
  obtain ⟨head, t, body, other, same, conflict, _⟩ := clash _ refused
  cases same
  exact ⟨G, follows, built, fits, free, disjoint, unmarked, computed, conflict, refused⟩

end LanguageTheory.Grammar

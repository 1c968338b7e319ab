import LanguageTheory.Grammar.Simplification
import LanguageTheory.Proofs.Collection.Discovery
import LanguageTheory.Proofs.Grammar.Interpretation
import LanguageTheory.Proofs.Grammar.RuleTable

/-!
Removing unit bodies. A head gets the other bodies of all heads to which unit bodies lead
(`mem_withoutUnits`), so each derivation of a word of terminals can skip its unit steps. The bodies
themselves stay what they were: empty ones remain with the start symbol, which no unit body leads
to.
-/

set_option autoImplicit false
set_option relaxedAutoImplicit false

namespace LanguageTheory.Grammar

variable {G : Grammar} {head other : Symbol} {body word : Word}

section Closure

def IsUnit (G : Grammar) (body : Word) : Prop := ∃ symbol ∈ G.nonTerminals, body = [symbol]

private theorem unit?_eq_some_iff :
    G.unit? body = some other ↔ other ∈ G.nonTerminals ∧ body = [other] := by
  obtain _ | ⟨first, _ | ⟨second, rest⟩⟩ := body
  · simp [unit?]
  · rw [unit?]
    split
    · rename_i known
      constructor
      · intro same
        obtain rfl := Option.some.inj same
        exact ⟨known, rfl⟩
      · rintro ⟨_, same⟩
        rw [(List.cons.inj same).1]
    · rename_i unknown
      refine iff_of_false (by simp) ?_
      rintro ⟨known, same⟩
      exact unknown ((List.cons.inj same).1 ▸ known)
  · simp [unit?]

theorem unit?_isNone_iff : (G.unit? body).isNone = true ↔ ¬ G.IsUnit body := by
  rw [Option.isNone_iff_eq_none, Option.eq_none_iff_forall_ne_some]
  simp only [ne_eq, unit?_eq_some_iff, IsUnit, not_exists]

def UnitStep (G : Grammar) (head other : Symbol) : Prop :=
  (head, [other]) ∈ G.table.productions ∧ other ∈ G.nonTerminals

theorem mem_unitSteps :
    other ∈ (G.table.bodies head).filterMap G.unit? ↔ G.UnitStep head other := by
  simp only [List.mem_filterMap, unit?_eq_some_iff, mem_bodies_table_iff]
  constructor
  · rintro ⟨_, mem, known, rfl⟩
    exact ⟨mem, known⟩
  · rintro ⟨mem, known⟩
    exact ⟨_, mem, known, rfl⟩

private theorem mem_unitClosure_iff : other ∈ G.unitClosure head ↔
    Relation.ReflTransGen G.UnitStep head other := by
  have count := G.nonTerminals.toList.toFinset_card_le
  have few : (insert head G.nonTerminals.toList.toFinset).card ≤ G.nonTerminals.size + 1 :=
    (Finset.card_insert_le _ _).trans (Nat.succ_le_succ count)
  have found : other ∈ G.unitClosure head ↔ ∃ start ∈ [head], Relation.ReflTransGen
      (fun x y => y ∈ (G.table.bodies x).filterMap G.unit?) start other := by
    refine Discovery.mem_reached_iff (insert head G.nonTerminals.toList.toFinset) few ?_ ?_
    · exact List.forall_mem_singleton.mpr (Finset.mem_insert_self _ _)
    · intro symbol _ next mem
      exact Finset.mem_insert_of_mem (List.mem_toFinset.mpr (mem_unitSteps.mp mem).2)
  simp only [mem_unitSteps] at found
  rw [found]
  simp

private theorem derives_of_unitSteps (way : Relation.ReflTransGen G.UnitStep head other) :
    G.Derives [head] [other] := by
  induction way with
  | refl => exact .refl
  | tail _ step ih => exact ih.trans (Derives.of_production step.1)

end Closure

section Units

theorem mem_withoutUnits : (head, body) ∈ G.withoutUnits.table.productions ↔
    ¬ G.IsUnit body ∧ ∃ other, Relation.ReflTransGen G.UnitStep head other ∧
      (other, body) ∈ G.table.productions := by
  have changed : (head, body) ∈ G.withoutUnits.table.productions ↔ ∃ bodies,
      G.table.get? head = some bodies ∧ body ∈ OrderedSet.ofList
        (((G.unitClosure head).flatMap G.table.bodies).filter fun body => (G.unit? body).isNone) :=
    mem_table_withTable.trans RuleTable.mem_bodies_mapValues
  simp only [changed, OrderedSet.mem_ofList, List.mem_filter, List.mem_flatMap, mem_unitClosure_iff,
    unit?_isNone_iff, mem_bodies_table_iff]
  constructor
  · rintro ⟨_, _, ⟨other, way, mem⟩, other_kind⟩
    exact ⟨other_kind, other, way, mem⟩
  · rintro ⟨other_kind, other, way, mem⟩
    -- Unit bodies lead from a head to another symbol only if the head has bodies.
    have known : ∃ body, (head, body) ∈ G.table.productions := by
      rcases Relation.ReflTransGen.cases_head way with rfl | ⟨next, step, _⟩
      · exact ⟨body, mem⟩
      · exact ⟨[next], step.1⟩
    obtain ⟨first, production⟩ := known
    obtain ⟨bodies, found, _⟩ := RuleTable.mem_bodies_iff.mp (mem_bodies_table_iff.mpr production)
    exact ⟨bodies, found, ⟨other, way, mem⟩, other_kind⟩

private theorem symbol_of_withoutUnits (mem : (head, body) ∈ G.withoutUnits.table.productions)
    {symbol : Symbol} (inside : symbol ∈ body) :
    ∃ head body, (head, body) ∈ G.table.productions ∧ symbol ∈ body := by
  obtain ⟨_, other, _, old⟩ := mem_withoutUnits.mp mem
  exact ⟨other, body, old, inside⟩

theorem wellFormed_withoutUnits (fits : G.WellFormed) (free : G.ContextFree) :
    G.withoutUnits.WellFormed :=
  fits.mapValues free fun _ _ mem _ inside => symbol_of_withoutUnits mem inside

theorem separated_withoutUnits (apart : G.Separated) : G.withoutUnits.Separated :=
  apart.mapValues fun _ _ mem _ inside => symbol_of_withoutUnits mem inside

/-- What a symbol first becomes when unit bodies are skipped. -/
def Becomes (G : Grammar) (symbol : Symbol) (begun : Word) : Prop :=
  (symbol, begun) ∈ G.withoutUnits.table.productions ∨ (symbol ∉ G.nonTerminals ∧ begun = [symbol])

private theorem becomes_of_unitStep (step : G.UnitStep head other) {begun : Word}
    (later : G.Becomes other begun) : G.Becomes head begun := by
  rcases later with mem | ⟨unknown, _⟩
  · obtain ⟨kind, last, way, production⟩ := mem_withoutUnits.mp mem
    exact Or.inl (mem_withoutUnits.mpr ⟨kind, last, way.head step, production⟩)
  · exact absurd step.2 unknown

theorem derives_withoutUnits_iff (free : G.ContextFree) {u : Word}
    (final : ∀ symbol ∈ word, symbol ∉ G.nonTerminals) :
    G.withoutUnits.Derives u word ↔ G.Derives u word := by
  constructor
  · refine Derives.of_productions (contextFree_withTable G _) fun head body mem => ?_
    obtain ⟨_, other, way, old⟩ := mem_withoutUnits.mp mem
    exact (derives_of_unitSteps way).trans (Derives.of_production old)
  · refine Derives.of_starts G.Becomes free ?_ ?_ fun symbol mem => Or.inr ⟨final symbol mem, rfl⟩
    · rintro symbol begun (mem | ⟨_, rfl⟩)
      · exact .of_production mem
      · exact .refl
    · intro head body mem
      by_cases unit : G.IsUnit body
      · obtain ⟨other, known, rfl⟩ := unit
        refine Or.inr ⟨other, [], rfl, fun begun later => ?_⟩
        rw [List.append_nil]
        exact becomes_of_unitStep ⟨mem, known⟩ later
      · exact Or.inl (Or.inl (mem_withoutUnits.mpr ⟨unit, head, .refl, mem⟩))

theorem generates_withoutUnits_iff (apart : G.Separated) (word : Word) :
    G.withoutUnits.Generates word ↔ G.Generates word :=
  and_congr_right fun terminals => derives_withoutUnits_iff apart.free
    (apart.disjoint.outside terminals)

/-- No unit body leads to the start symbol if it has an empty body, so no other head gets one. -/
theorem EmptyOnlyAtStart.withoutUnits (only : G.EmptyOnlyAtStart) (free : G.ContextFree) :
    G.withoutUnits.EmptyOnlyAtStart := by
  refine (contextFree_withTable G _).emptyOnlyAtStart_iff.mpr fun head mem => ?_
  obtain ⟨_, other, way, old⟩ := mem_withoutUnits.mp mem
  obtain ⟨rfl, unused⟩ := free.emptyOnlyAtStart_iff.mp only other old
  rcases Relation.ReflTransGen.cases_tail way with same | ⟨before, _, step⟩
  · refine ⟨same.symm, fun symbol body production => ?_⟩
    obtain ⟨_, source, _, old⟩ := mem_withoutUnits.mp production
    exact unused source body old
  · exact absurd (List.mem_singleton_self _) (unused before _ step.1)

end Units

end LanguageTheory.Grammar

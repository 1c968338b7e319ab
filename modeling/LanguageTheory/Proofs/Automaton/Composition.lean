import LanguageTheory.Proofs.Automaton.Operations
import LanguageTheory.Proofs.Automaton.SetAutomata

/-!
Operations one after the other. A composite name that one operation makes can be the name of a set
of states for the next one, and then determinization takes the set for that state
(`not_forall_composed_keeps_words`). It does not as long as the sets of states that the automaton
can be in have different names, and minimization does not as long as the classes have, whatever
operations came before (`Composed.keeps_words`).
-/

set_option autoImplicit false
set_option relaxedAutoImplicit false

namespace LanguageTheory.Automaton

variable {A : Automaton}

section EntryMark

def withEntryMark (A : Automaton) : Automaton :=
  { A with states := A.states.mapValues fun name role => ⟨decide (name = A.entry), role.isExit⟩ }

theorem wellFormed_withEntryMark (linked : A.Linked) : A.withEntryMark.WellFormed := by
  have keys : A.withEntryMark.states.keys = A.states.keys := OrderedTable.keys_mapValues _ _
  have found (name : StateName) : A.withEntryMark.states.get? name = _ :=
    OrderedTable.get?_mapValues _ _ name
  exact {
    entry_role := by
      obtain ⟨role, stored⟩ := OrderedTable.mem_keys_iff.mp linked.entry_mem
      exact ⟨_, (found A.entry).trans (congrArg _ stored), decide_eq_true rfl⟩
    entry_unique := fun name role stored isEntry => by
      rw [found, Option.map_eq_some_iff] at stored
      obtain ⟨_, _, rfl⟩ := stored
      exact of_decide_eq_true isEntry
    source_mem := fun t mem => keys ▸ linked.source_mem t mem
    target_mem := fun t mem => keys ▸ linked.target_mem t mem
    label_mem := linked.label_mem }

private theorem stateNames_withEntryMark (A : Automaton) :
    A.withEntryMark.stateNames = A.stateNames :=
  OrderedTable.keys_mapValues _ _

private theorem size_withEntryMark (A : Automaton) : A.withEntryMark.states.size = A.states.size :=
  OrderedTable.size_mapValues _ _

private theorem isExit_withEntryMark (A : Automaton) : A.withEntryMark.isExit = A.isExit := by
  funext name
  rw [isExit, isExit, withEntryMark, OrderedTable.get?_mapValues, Option.map_map]
  rfl

private theorem exits_withEntryMark (A : Automaton) : A.withEntryMark.exits = A.exits := by
  simp only [exits, withEntryMark, OrderedTable.keys, OrderedTable.filter, OrderedTable.mapValues,
    List.filter_map, List.map_map]
  rfl

private theorem closure_withEntryMark (A : Automaton) : A.withEntryMark.closure = A.closure := rfl

private theorem advance_withEntryMark (A : Automaton) : A.withEntryMark.advance = A.advance := rfl

private theorem statesAfter_withEntryMark (A : Automaton) :
    A.withEntryMark.statesAfter = A.statesAfter := by
  funext word
  rw [statesAfter, statesAfter, advance_withEntryMark, closure_withEntryMark]
  rfl

private theorem accepts_withEntryMark (A : Automaton) : A.withEntryMark.accepts = A.accepts := by
  funext word
  rw [accepts_eq, accepts_eq, statesAfter_withEntryMark, isExit_withEntryMark]

private theorem setsApart_withEntryMark (A : Automaton) :
    A.withEntryMark.SetsApart ↔ A.SetsApart := by
  unfold SetsApart IsReached
  rw [statesAfter_withEntryMark]

private theorem determinize_withEntryMark (A : Automaton) :
    A.withEntryMark.determinize = A.determinize := by
  have system : A.withEntryMark.subsetSystem = A.subsetSystem := by
    rw [subsetSystem, subsetSystem, advance_withEntryMark, closure_withEntryMark,
      isExit_withEntryMark]
    rfl
  rw [determinize, determinize, system, size_withEntryMark]

/-- The subset construction does not look at the marks, so they may be set right first. -/
theorem Linked.wellFormed_determinize (linked : A.Linked) : A.determinize.WellFormed := by
  rw [← determinize_withEntryMark]
  exact Automaton.wellFormed_determinize (wellFormed_withEntryMark linked)

private theorem restrict_withEntryMark (A : Automaton) (keep : StateName → Bool) :
    A.withEntryMark.restrict keep = (A.restrict keep).withEntryMark := by
  simp only [restrict, withEntryMark, OrderedTable.filter, OrderedTable.mapValues, List.filter_map]
  rfl

private theorem trim_withEntryMark (A : Automaton) :
    A.withEntryMark.trim = A.trim.withEntryMark := by
  have live (A : Automaton) : A.withEntryMark.removeDeadStates =
      A.removeDeadStates.withEntryMark := by
    rw [removeDeadStates, removeDeadStates, ← restrict_withEntryMark, liveStates, liveStates,
      exits_withEntryMark, size_withEntryMark]
    rfl
  have reachable (A : Automaton) :
      A.withEntryMark.removeUnreachableStates = A.removeUnreachableStates.withEntryMark := by
    rw [removeUnreachableStates, removeUnreachableStates, ← restrict_withEntryMark, reachableStates,
      reachableStates, size_withEntryMark]
    rfl
  rw [trim, trim, live, reachable]

private theorem stableClasses_withEntryMark (A : Automaton) :
    A.withEntryMark.stableClasses = A.stableClasses := by
  rw [stableClasses, stableClasses, acceptanceClasses, acceptanceClasses, stateNames_withEntryMark,
    isExit_withEntryMark, size_withEntryMark]
  rfl

theorem classesApart_withEntryMark (A : Automaton) :
    A.withEntryMark.ClassesApart ↔ A.ClassesApart := by
  unfold ClassesApart
  rw [trim_withEntryMark, stableClasses_withEntryMark]

theorem minimize_withEntryMark (A : Automaton) : A.withEntryMark.minimize = A.minimize := by
  have merged (A : Automaton) (classes : List (SortedSet StateName)) :
      A.withEntryMark.mergeClasses classes = A.mergeClasses classes := by
    rw [mergeClasses, mergeClasses, isExit_withEntryMark]
    rfl
  rw [minimize, minimize, trim_withEntryMark, stableClasses_withEntryMark, merged]
  rfl

end EntryMark

/-- Made by operations, one after the other, from automata whose state names contain no comma. -/
inductive Composed : Automaton → Prop
  | given {states : List State} {alphabet : Alphabet} {transitions : List Transition}
      {A : Automaton}
      (built : ofParts states alphabet transitions = .ok A)
      (free : ∀ name ∈ A.stateNames, CommaFree name) : Composed A
  | determinize {A : Automaton} (made : Composed A) : Composed A.determinize
  | minimize {A M : Automaton} (made : Composed A) (result : A.minimize = .ok M) : Composed M
  | union {A B C : Automaton} {rename : Bool} {stem : String} (left : Composed A)
      (right : Composed B) (result : A.union B rename stem = .ok C) : Composed C
  | intersect {A B C : Automaton} (left : Composed A) (right : Composed B)
      (result : A.intersect B = .ok C) : Composed C
  | complete {A : Automaton} (made : Composed A) : Composed A.complete
  | complement {A C : Automaton} (made : Composed A) (result : A.complement = .ok C) : Composed C

private theorem Composed.linked (composed : Composed A) : A.Linked := by
  induction composed with
  | given built _ => exact (wellFormed_of_ofParts built).linked
  | determinize _ ih => exact ih.wellFormed_determinize.linked
  | minimize _ result ih => exact linked_minimize ih result
  | union _ _ result left right => exact linked_union left right result
  | intersect _ _ result left right => exact linked_intersect left right result
  | complete _ ih => exact linked_complete ih
  | complement _ result ih => exact linked_complement ih result

theorem not_forall_composed_keeps_words :
    ¬ ∀ A, Composed A →
      (∀ word, Symbol.epsilon ∉ word → A.determinize.accepts word = A.accepts word) ∧
        ∀ M, A.minimize = .ok M →
          ∀ word, Symbol.epsilon ∉ word → M.accepts word = A.accepts word := by
  intro keeps
  have first : ofParts [⟨"s", ⟨true, false⟩⟩, ⟨"a", ⟨false, true⟩⟩, ⟨"c", ⟨false, false⟩⟩]
      (OrderedSet.ofList ["x"]) [.plain "s" "x" "a", .plain "s" "x" "c"] = .ok _ := rfl
  have second : ofParts [⟨"t", ⟨true, false⟩⟩, ⟨"a", ⟨false, false⟩⟩, ⟨"c", ⟨false, false⟩⟩]
      (OrderedSet.ofList ["y"]) [.plain "t" "y" "a", .plain "t" "y" "c"] = .ok _ := rfl
  have composed := Composed.union (.determinize (.given first (by decide)))
    (.given second (by decide)) (rfl : union _ _ false "q" = .ok _)
  have same := (keeps _ composed).1 ["y"] (by decide)
  exact absurd same (by decide +kernel)

/-- Whatever operations came before, determinization keeps the words if the sets in which the
automaton can be have different names, and minimization if the classes have. -/
theorem Composed.keeps_words (composed : Composed A) :
    (A.SetsApart → ∀ word, Symbol.epsilon ∉ word → A.determinize.accepts word = A.accepts word) ∧
      ∀ M, A.minimize = .ok M → A.ClassesApart → ∀ word, M.accepts word = A.accepts word := by
  have fits := wellFormed_withEntryMark composed.linked
  constructor
  · intro apart word visible
    have apart_marked := (setsApart_withEntryMark A).mpr apart
    rw [← determinize_withEntryMark, apart_marked.accepts_determinize_eq fits visible,
      accepts_withEntryMark]
  · intro M result apart word
    have apart_marked := (classesApart_withEntryMark A).mpr apart
    have det : A.withEntryMark.Deterministic := (minimize_eq_ok_iff.mp result).1
    have reduces := apart_marked.reducesTo fits det
    have same := reduces.result
    rw [minimize_withEntryMark, result] at same
    rw [Except.ok.inj same, reduces.same, accepts_withEntryMark]

theorem Composed.keeps_words_renamed_union :
    ∃ A B M, ofParts [⟨"s", ⟨true, false⟩⟩, ⟨"a", ⟨false, true⟩⟩, ⟨"c", ⟨false, false⟩⟩]
        (OrderedSet.ofList ["x"]) [.plain "s" "x" "a", .plain "s" "x" "c"] = .ok A ∧
      A.determinize.union A.determinize true "q" = .ok B ∧ B.SetsApart ∧
      B.determinize.accepts ["x"] = true ∧ B.determinize.minimize = .ok M ∧
      B.determinize.ClassesApart ∧ M.accepts ["x"] = true := by
  obtain ⟨A, B, M, built, free, joined, start, closed, accepted, minimized, apart⟩ :
      ∃ A B M, ofParts [⟨"s", ⟨true, false⟩⟩, ⟨"a", ⟨false, true⟩⟩, ⟨"c", ⟨false, false⟩⟩]
          (OrderedSet.ofList ["x"]) [.plain "s" "x" "a", .plain "s" "x" "c"] = .ok A ∧
        (∀ name ∈ A.stateNames, CommaFree name) ∧
        A.determinize.union A.determinize true "q" = .ok B ∧
        B.withEntryMark.subsetSystem.start ∈ B.withEntryMark.subsetSystem.configurations 5 ∧
        (∀ c ∈ B.withEntryMark.subsetSystem.configurations 5,
          ∀ d ∈ B.withEntryMark.subsetSystem.successors c,
            d ∈ B.withEntryMark.subsetSystem.configurations 5) ∧
        B.accepts ["x"] = true ∧ B.determinize.minimize = .ok M ∧ B.determinize.ClassesApart :=
    ⟨_, _, _, rfl, by decide, rfl, by decide +kernel, by decide +kernel, by decide +kernel, rfl,
      by decide +kernel⟩
  have composed : Composed B :=
    .union (.determinize (.given built free)) (.determinize (.given built free)) joined
  have sets : B.SetsApart := (setsApart_withEntryMark B).mp
    (setsApart_of_met start closed (wellFormed_withEntryMark composed.linked))
  have kept := (Composed.keeps_words composed).1 sets ["x"] (by decide)
  have merged := (Composed.keeps_words composed.determinize).2 M minimized apart ["x"]
  exact ⟨A, B, M, built, joined, sets, kept.trans accepted, minimized, apart,
    merged.trans (kept.trans accepted)⟩

end LanguageTheory.Automaton

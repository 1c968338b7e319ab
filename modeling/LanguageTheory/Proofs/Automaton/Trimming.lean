import LanguageTheory.Proofs.Automaton.Construction
import LanguageTheory.Proofs.Automaton.Reachability

/-!
Removing dead and unreachable states. Two restrictions one after the other are one restriction, and
both orders keep the same states: the entry and those on a path from the entry to an accepting
state. On such a path no state is dead and none is unreachable, so neither step takes away what the
other one needs (`trim_exact`).
-/

set_option autoImplicit false
set_option relaxedAutoImplicit false

namespace LanguageTheory.Automaton

variable {A : Automaton}

/-- The state lies on a path from the entry to an accepting state. -/
def LiesBetween (A : Automaton) (name : StateName) : Prop :=
  (∃ before, A.Path A.entry before name) ∧ ∃ rest, A.AcceptsFrom name rest

private theorem live_and_reachable_iff (fits : A.WellFormed) {name : StateName} :
    (decide (name ∈ A.liveStates ∨ name = A.entry) &&
        decide (name ∈ A.removeDeadStates.reachableStates)) = true ↔
      name = A.entry ∨ A.LiesBetween name := by
  rw [Bool.and_eq_true, live_or_entry_iff fits, reachable_iff (wellFormed_removeDeadStates fits)]
  constructor
  · rintro ⟨live | here, before, way⟩
    · exact Or.inr ⟨⟨before, path_of_restrict way⟩, live⟩
    · exact Or.inl here
  · rintro (rfl | ⟨⟨before, way⟩, rest, last, onward, accepting⟩)
    · exact ⟨Or.inr rfl, [], .stay A.entry⟩
    · refine ⟨Or.inl ⟨rest, last, onward, accepting⟩, before, ?_⟩
      refine path_restrict ((live_or_entry_iff fits).mpr (Or.inr rfl)) ?_ way
      intro _ _ after middle _ _ later
      exact (live_or_entry_iff fits).mpr
        (Or.inl ⟨middle ++ rest, last, later.append onward, accepting⟩)

private theorem reachable_and_live_iff (fits : A.WellFormed) {name : StateName}
    (mem : name ∈ A.states.keys) :
    (decide (name ∈ A.reachableStates) &&
        decide (name ∈ A.removeUnreachableStates.liveStates ∨ name = A.entry)) = true ↔
      name = A.entry ∨ A.LiesBetween name := by
  have kept (reached : decide (name ∈ A.reachableStates) = true) (word : Word) :
      A.removeUnreachableStates.AcceptsFrom name word ↔ A.AcceptsFrom name word :=
    acceptsFrom_removeUnreachableStates fits (mem_keys_restrict.mpr ⟨mem, reached⟩)
  have live : decide (name ∈ A.removeUnreachableStates.liveStates ∨ name = A.entry) = true ↔ _ :=
    live_or_entry_iff (wellFormed_removeUnreachableStates fits)
  rw [Bool.and_eq_true, live]
  constructor
  · rintro ⟨reached, ⟨word, accepted⟩ | here⟩
    · exact Or.inr ⟨(reachable_iff fits).mp reached, word, (kept reached word).mp accepted⟩
    · exact Or.inl here
  · rintro (rfl | ⟨before, word, accepted⟩)
    · exact ⟨A.entry_reachable, Or.inr rfl⟩
    · have reached := (reachable_iff fits).mpr before
      exact ⟨reached, Or.inl ⟨word, (kept reached word).mpr accepted⟩⟩

private theorem trim_eq_restrict (A : Automaton) : A.trim = A.restrict fun name =>
    decide (name ∈ A.liveStates ∨ name = A.entry) &&
      decide (name ∈ A.removeDeadStates.reachableStates) := restrict_restrict A _ _

private theorem trim_eq_of_other_order (fits : A.WellFormed) :
    A.trim = A.removeUnreachableStates.removeDeadStates := by
  calc A.trim = A.restrict fun name => decide (name ∈ A.liveStates ∨ name = A.entry) &&
        decide (name ∈ A.removeDeadStates.reachableStates) := A.trim_eq_restrict
    _ = A.restrict fun name => decide (name ∈ A.reachableStates) &&
        decide (name ∈ A.removeUnreachableStates.liveStates ∨ name = A.entry) := by
      refine restrict_congr fits fun name mem => ?_
      rw [Bool.eq_iff_iff, live_and_reachable_iff fits, reachable_and_live_iff fits mem]
    _ = A.removeUnreachableStates.removeDeadStates := (restrict_restrict A _ _).symm

private theorem get?_trim (fits : A.WellFormed) {name : StateName} {role : StateRole} :
    A.trim.states.get? name = some role ↔
      A.states.get? name = some role ∧ (name = A.entry ∨ A.LiesBetween name) := by
  rw [trim_eq_restrict, get?_restrict, live_and_reachable_iff fits]

private theorem mem_transitions_trim (fits : A.WellFormed) {t : Transition} :
    t ∈ A.trim.transitions ↔
    t ∈ A.transitions ∧ (t.source = A.entry ∨ A.LiesBetween t.source) ∧
      (t.target = A.entry ∨ A.LiesBetween t.target) := by
  rw [trim_eq_restrict, mem_transitions_restrict, live_and_reachable_iff fits,
    live_and_reachable_iff fits]

/-- For every automaton: the dead and the unreachable states may be removed in either order. What is
left accepts the same words without `ε`; it has the entry and the states between the entry and an
accepting state, with their roles, and all transitions between these. -/
theorem trim_exact {states : List State} {alphabet : Alphabet} {transitions : List Transition}
    (built : ofParts states alphabet transitions = .ok A) :
    A.removeDeadStates.removeUnreachableStates = A.removeUnreachableStates.removeDeadStates ∧
    (∀ word, Symbol.epsilon ∉ word →
      A.removeDeadStates.removeUnreachableStates.accepts word = A.accepts word) ∧
    (∀ name role, A.removeDeadStates.removeUnreachableStates.states.get? name = some role ↔
      A.states.get? name = some role ∧ (name = A.entry ∨ A.LiesBetween name)) ∧
    (∀ t, t ∈ A.removeDeadStates.removeUnreachableStates.transitions ↔
      t ∈ A.transitions ∧ (t.source = A.entry ∨ A.LiesBetween t.source) ∧
        (t.target = A.entry ∨ A.LiesBetween t.target)) ∧
    A.removeDeadStates.removeUnreachableStates.alphabet = A.alphabet ∧
    A.removeDeadStates.removeUnreachableStates.entry = A.entry := by
  have fits := wellFormed_of_ofParts built
  refine ⟨trim_eq_of_other_order fits, fun word visible => ?_, fun _ _ => get?_trim fits,
    fun _ => mem_transitions_trim fits, rfl, rfl⟩
  exact accepts_trim_of_readable fits (readable_of_visible visible)

theorem trim_exact_silent_dead_end :
    let built := ofParts
      [⟨"p", ⟨true, false⟩⟩, ⟨"q", ⟨false, true⟩⟩, ⟨"d", ⟨false, false⟩⟩, ⟨"u", ⟨false, false⟩⟩]
      (OrderedSet.ofList ["a"])
      [.plain "p" "a" "q", .plain "p" "ε" "d", .plain "d" "ε" "d", .plain "u" "a" "q"]
    ∃ A, built = .ok A ∧
      A.removeDeadStates.removeUnreachableStates = A.removeUnreachableStates.removeDeadStates ∧
      Symbol.epsilon ∉ ["a"] ∧
      A.removeDeadStates.removeUnreachableStates.accepts ["a"] = A.accepts ["a"] ∧
      ¬ A.LiesBetween "d" ∧ ¬ A.LiesBetween "u" := by
  intro built
  have accepted : built = .ok _ := rfl
  obtain ⟨order, language, states, _⟩ := trim_exact accepted
  refine ⟨_, accepted, order, by decide, language _ (by decide), fun between => ?_,
    fun between => ?_⟩
  · have kept := (states "d" ⟨false, false⟩).mpr ⟨by decide, Or.inr between⟩
    exact absurd kept (by decide)
  · have kept := (states "u" ⟨false, false⟩).mpr ⟨by decide, Or.inr between⟩
    exact absurd kept (by decide)

end LanguageTheory.Automaton

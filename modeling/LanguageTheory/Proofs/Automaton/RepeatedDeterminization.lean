import LanguageTheory.Proofs.Automaton.Determinization

/-!
The subset construction for states of any names. Sets of one name count as one, and only the first
of them is looked at. The search ends all the same, since there are finitely many names, and its
result is well formed, deterministic and reachable (`determinize_exact`). Determinizing once more
changes nothing: the sets that are met then have one state each and are named for it, so the second
search finds them in the order in which the first one found the states
(`MoveSystem.configurations_repeated`).
-/

set_option autoImplicit false
set_option relaxedAutoImplicit false

namespace LanguageTheory

namespace MoveSystem

variable {σ : Type} {M : MoveSystem σ} {bound : Nat}

abbrev repeated (M : MoveSystem σ) (bound : Nat) : MoveSystem (SortedSet StateName) :=
  (M.automaton bound).subsetSystem

def stateSet (M : MoveSystem σ) (c : σ) : SortedSet StateName := .singleton (M.name c)

private theorem name_stateSet (M : MoveSystem σ) (c : σ) :
    compositeName (M.stateSet c) = M.name c :=
  compositeName_singleton (M.name c)

section Visible

variable (visible : Symbol.epsilon ∉ M.alphabet)
include visible

private theorem voiced_automaton (bound : Nat) : (M.automaton bound).Voiced :=
  (deterministic_automaton fun mem => absurd mem visible).voiced

private theorem alphabet_repeated (bound : Nat) : (M.repeated bound).alphabet = M.alphabet :=
  Alphabet.visible_eq visible

private theorem start_repeated (bound : Nat) : (M.repeated bound).start = M.stateSet M.start :=
  (voiced_automaton visible bound).closure_eq (M.name M.start)

private theorem move_stateSet {c : σ} (met : c ∈ M.configurations bound) {symbol : Symbol}
    (known : symbol ∈ M.alphabet) :
    (M.repeated bound).move (M.stateSet c) symbol = (M.move c symbol).map M.stateSet := by
  have reached (name : StateName) : name ∈ (M.automaton bound).advance (M.stateSet c) symbol ↔
      ∃ d, M.move c symbol = some d ∧ M.name d = name := by
    rw [stateSet, (voiced_automaton visible bound).mem_advance_singleton, moves_automaton]
    constructor
    · rintro ⟨c', met', same, _, moved⟩
      exact eq_of_name_eq met' met same ▸ moved
    · exact fun moved => ⟨c, met, rfl, known, moved⟩
  cases move : M.move c symbol with
  | none =>
    refine Option.eq_none_iff_forall_ne_some.mpr fun next moved => ?_
    obtain ⟨rfl, name, mem⟩ := Automaton.subsetSystem_move.mp moved
    obtain ⟨d, moved, _⟩ := (reached name).mp mem
    cases move.symm.trans moved
  | some d =>
    refine Automaton.subsetSystem_move.mpr ⟨?_, M.name d, SortedSet.mem_singleton.mpr rfl⟩
    apply SortedSet.ext
    intro name
    rw [reached, stateSet, SortedSet.mem_singleton, move]
    simp [eq_comm]

private theorem successors_stateSet {c : σ} (met : c ∈ M.configurations bound) :
    (M.repeated bound).successors (M.stateSet c) = (M.successors c).map M.stateSet := by
  rw [successors, successors, alphabet_repeated visible, List.map_filterMap]
  exact List.filterMap_congr fun symbol known => move_stateSet visible met known

private theorem transitionsOf_stateSet {c : σ} (met : c ∈ M.configurations bound) :
    (M.repeated bound).transitionsOf (M.stateSet c) = M.transitionsOf c := by
  rw [transitionsOf, transitionsOf, alphabet_repeated visible]
  refine List.filterMap_congr fun symbol known => ?_
  rw [move_stateSet visible met known, Option.map_map]
  exact Option.map_congr fun d _ =>
    congrArg₂ (Transition.plain · symbol ·) (M.name_stateSet c) (M.name_stateSet d)

private theorem role_stateSet {c : σ} (met : c ∈ M.configurations bound) :
    (M.repeated bound).role (M.stateSet c) = M.role c := by
  have name (d : σ) : (M.repeated bound).name (M.stateSet d) = M.name d := M.name_stateSet d
  have exit : (M.repeated bound).isAccepting (M.stateSet c) = M.isAccepting c := by
    rw [← isExit_automaton met]
    exact Bool.or_false _
  rw [role, role, start_repeated visible, name, name, exit]

/-- The sets that the subset construction meets are those of one state, in the order of the
states. -/
theorem configurations_repeated (bounded : M.Bounded bound) :
    (M.repeated bound).configurations (2 ^ (M.automaton bound).states.size + 1) =
      (M.configurations bound).map M.stateSet := by
  apply configurations_eq
  · rw [start_repeated visible]
    apply (ends_configurations bounded).map
    · exact M.name_stateSet
    · exact fun c met => successors_stateSet visible met
    · exact fun c => id
  · rw [List.length_map, ← size_automaton]
    exact Nat.lt_two_pow_self.le.trans (Nat.le_succ _)

private theorem determinize_automaton (bounded : M.Bounded bound) :
    (M.automaton bound).determinize = M.automaton bound := by
  have met := configurations_repeated visible bounded
  have entries : ((M.configurations bound).map M.stateSet).map (fun c =>
      (compositeName c, (M.repeated bound).role c)) =
        (M.configurations bound).map fun c => (M.name c, M.role c) := by
    rw [List.map_map]
    exact List.map_congr_left fun c met =>
      congrArg₂ Prod.mk (M.name_stateSet c) (role_stateSet visible met)
  have transitions : ((M.configurations bound).map M.stateSet).flatMap
      (M.repeated bound).transitionsOf = (M.configurations bound).flatMap M.transitionsOf := by
    rw [List.flatMap_map]
    exact List.flatMap_congr fun c met => transitionsOf_stateSet visible met
  have entry : compositeName (M.repeated bound).start = M.name M.start := by
    rw [start_repeated visible, name_stateSet]
  calc (M.automaton bound).determinize
      = ⟨OrderedTable.ofList (((M.repeated bound).configurations
            (2 ^ (M.automaton bound).states.size + 1)).map fun c =>
              (compositeName c, (M.repeated bound).role c)),
          (M.repeated bound).alphabet,
          OrderedSet.ofList (((M.repeated bound).configurations
            (2 ^ (M.automaton bound).states.size + 1)).flatMap (M.repeated bound).transitionsOf),
          compositeName (M.repeated bound).start⟩ := rfl
    _ = M.automaton bound := by
      rw [met, entries, transitions, alphabet_repeated visible, entry]
      rfl

end Visible

end MoveSystem

namespace Automaton

variable {A : Automaton}

/-- Whatever the names of the states are, the search for sets ends; the result consists of what the
search found, is well formed and deterministic, all of its states can be reached, and determinizing
it gives the same automaton, listed in the same order. -/
theorem determinize_exact {states : List State} {alphabet : Alphabet}
    {transitions : List Transition} (built : ofParts states alphabet transitions = .ok A) :
    (∃ met, Discovery.Ends compositeName A.subsetSystem.successors [A.closure A.entry]
        [A.closure A.entry] met ∧
      A.determinize =
      ⟨OrderedTable.ofList (met.map fun c => (compositeName c, A.subsetSystem.role c)),
        A.alphabet.visible, OrderedSet.ofList (met.flatMap A.subsetSystem.transitionsOf),
        compositeName (A.closure A.entry)⟩) ∧
    A.determinize.WellFormed ∧ A.determinize.Deterministic ∧
    (∀ name ∈ A.determinize.stateNames,
      ∃ word, A.determinize.Path A.determinize.entry word name) ∧
    A.determinize.determinize = A.determinize := by
  have fits := wellFormed_of_ofParts built
  have bounded := bounded_subsetSystem fits
  refine ⟨⟨_, MoveSystem.ends_configurations bounded, rfl⟩, wellFormed_determinize fits,
    deterministic_determinize A, ?_, ?_⟩
  · exact fun name known => MoveSystem.path_to_state (voiced_subsetSystem A _) known
  · exact MoveSystem.determinize_automaton A.visible_subsetSystem bounded

/-- After `x` the automaton is in two states, which silent moves join in a circle, and after `y` in
one state with the name of that set. Only the set after `x` is looked at. -/
theorem determinize_exact_colliding_names :
    let built := ofParts [⟨"s", ⟨true, false⟩⟩, ⟨"a", ⟨false, false⟩⟩, ⟨"b", ⟨false, false⟩⟩,
        ⟨"a,b", ⟨false, true⟩⟩] (OrderedSet.ofList ["x", "y"])
      [.plain "s" "x" "a", .plain "a" "ε" "b", .plain "b" "ε" "a", .plain "s" "y" "a,b",
        .plain "a,b" "x" "s", .plain "b" "y" "b"]
    ∃ A, built = .ok A ∧ A.statesAfter ["x"] ≠ A.statesAfter ["y"] ∧
      compositeName (A.statesAfter ["x"]) = compositeName (A.statesAfter ["y"]) ∧
      A.determinize.stateNames = ["s", "a,b"] ∧ A.determinize.determinize = A.determinize := by
  intro built
  have accepted : built = .ok _ := rfl
  have again := (determinize_exact accepted).2.2.2.2
  exact ⟨_, accepted, by decide +kernel, by decide +kernel, by decide +kernel, again⟩

end Automaton

end LanguageTheory

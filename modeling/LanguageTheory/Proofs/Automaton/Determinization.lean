import LanguageTheory.Automaton.Determinization
import LanguageTheory.Proofs.Automaton.Construction
import LanguageTheory.Proofs.Automaton.MoveSystem
import LanguageTheory.Proofs.CompositeName

/-!
The subset construction. A run of the result keeps track of the set of states in which the automaton
can be. The result is always well formed and deterministic; it accepts the same words if the names
of the states contain no comma, so that composite names tell the sets apart.
-/

set_option autoImplicit false
set_option relaxedAutoImplicit false

namespace LanguageTheory.Automaton

variable {A : Automaton}

def IsStateSet (A : Automaton) (names : SortedSet StateName) : Prop :=
  (∃ name, name ∈ names) ∧ ∀ name ∈ names, name ∈ A.states.keys

theorem isStateSet_closure_entry (fits : A.WellFormed) : A.IsStateSet (A.closure A.entry) := by
  refine ⟨⟨A.entry, mem_closure_iff.mpr (.stay A.entry)⟩, ?_⟩
  intro name mem
  exact fits.path_mem (mem_closure_iff.mp mem).path fits.entry_mem

theorem subsetSystem_move {current next : SortedSet StateName} {symbol : Symbol} :
    A.subsetSystem.move current symbol = some next ↔
      A.advance current symbol = next ∧ ∃ name, name ∈ next := by
  simp only [subsetSystem, Option.ite_none_left_eq_some, Option.some.injEq, Bool.not_eq_true,
    SortedSet.isEmpty_eq_false_iff]
  constructor
  · rintro ⟨inhabited, rfl⟩
    exact ⟨rfl, inhabited⟩
  · rintro ⟨rfl, inhabited⟩
    exact ⟨inhabited, rfl⟩

private theorem isStateSet_move (fits : A.WellFormed) {current next : SortedSet StateName}
    {symbol : Symbol} (move : A.subsetSystem.move current symbol = some next) :
    A.IsStateSet next := by
  obtain ⟨rfl, inhabited⟩ := subsetSystem_move.mp move
  refine ⟨inhabited, fun name mem => ?_⟩
  obtain ⟨source, _, middle, step, silent⟩ := mem_advance_iff.mp mem
  exact fits.path_mem silent.path (fits.moves_mem step).2

theorem isStateSet_of_met (fits : A.WellFormed) {bound : Nat} {names : SortedSet StateName}
    (met : names ∈ A.subsetSystem.configurations bound) : A.IsStateSet names :=
  MoveSystem.configurations_invariant bound (isStateSet_closure_entry fits)
    (fun _ _ _ _ _ move => isStateSet_move fits move) names met

theorem bounded_subsetSystem (fits : A.WellFormed) :
    A.subsetSystem.Bounded (2 ^ A.states.size + 1) :=
  MoveSystem.bounded_of_subsets A.card_stateNames_le fun _ met name mem =>
    List.mem_toFinset.mpr ((isStateSet_of_met fits met).2 name mem)

theorem visible_subsetSystem (A : Automaton) : Symbol.epsilon ∉ A.subsetSystem.alphabet :=
  fun mem => (Alphabet.mem_visible.mp mem).2 rfl

theorem voiced_subsetSystem (A : Automaton) (bound : Nat) : A.subsetSystem.Voiced bound :=
  fun mem => absurd mem A.visible_subsetSystem

theorem wellFormed_determinize (fits : A.WellFormed) : A.determinize.WellFormed :=
  MoveSystem.wellFormed_automaton (bounded_subsetSystem fits)

theorem deterministic_determinize (A : Automaton) : A.determinize.Deterministic :=
  MoveSystem.deterministic_automaton (voiced_subsetSystem A _)

theorem subsetSystem_accepts_iff (fits : A.WellFormed) {word : Word}
    (visible : Symbol.epsilon ∉ word) {current : SortedSet StateName} :
    A.subsetSystem.Accepts current word ↔
      ∃ name ∈ word.foldl A.advance current, A.isExit name = true := by
  induction word generalizing current with
  | nil => exact List.any_eq_true
  | cons symbol word ih =>
    rw [List.mem_cons, not_or] at visible
    rw [MoveSystem.Accepts, List.foldl_cons, ← ih visible.2]
    constructor
    · rintro ⟨_, next, move, accepted⟩
      exact (subsetSystem_move.mp move).1 ▸ accepted
    · intro accepted
      have inhabited : ∃ name, name ∈ A.advance current symbol := by
        by_contra none
        obtain ⟨name, mem, _⟩ := (ih visible.2).mp accepted
        exact not_mem_foldl_advance (not_exists.mp none) word name mem
      obtain ⟨name, mem⟩ := inhabited
      obtain ⟨source, _, middle, step, _⟩ := mem_advance_iff.mp mem
      have known := fits.moves_label (fun h => visible.1 h.symm) step
      refine ⟨OrderedSet.mem_filter.mpr ⟨known, ?_⟩, _, subsetSystem_move.mpr ⟨rfl, name, mem⟩,
        accepted⟩
      exact decide_eq_true fun h => visible.1 h.symm

private theorem acceptsFrom_determinize (fits : A.WellFormed)
    (free : ∀ name ∈ A.stateNames, CommaFree name) {word : Word} :
    A.determinize.AcceptsFrom A.determinize.entry word ↔
      A.subsetSystem.Accepts (A.closure A.entry) word := by
  have start := isStateSet_closure_entry fits
  have keep : ∀ c, A.IsStateSet c → ∀ symbol ∈ A.subsetSystem.alphabet, ∀ d,
      A.subsetSystem.move c symbol = some d → A.IsStateSet d :=
    fun _ _ _ _ _ move => isStateSet_move fits move
  have apart : ∀ c d, A.IsStateSet c → A.IsStateSet d → compositeName c = compositeName d →
      c = d := by
    rintro c d ⟨⟨_, hc⟩, c_states⟩ ⟨⟨_, hd⟩, d_states⟩ same
    exact compositeName_inj hc hd (fun name mem => free name (c_states name mem))
      (fun name mem => free name (d_states name mem)) same
  exact MoveSystem.acceptsFrom_automaton (voiced_subsetSystem A _)
    (fun c met symbol mem d move => MoveSystem.configurations_closed (bounded_subsetSystem fits)
      start keep apart met mem move)
    (MoveSystem.start_mem start keep apart)

/-- Determinization keeps the language of every automaton whose state names contain no comma. -/
theorem accepts_determinize {states : List State} {alphabet : Alphabet}
    {transitions : List Transition} (built : ofParts states alphabet transitions = .ok A)
    (free : ∀ name ∈ A.stateNames, CommaFree name) {word : Word}
    (visible : Symbol.epsilon ∉ word) : A.determinize.accepts word = A.accepts word := by
  have fits := wellFormed_of_ofParts built
  have result : A.determinize.accepts word = true ↔ A.accepts word = true := by
    rw [(deterministic_determinize A).accepts_iff,
      acceptsFrom_determinize fits free, subsetSystem_accepts_iff fits visible, accepts_eq]
    exact List.any_eq_true.symm
  exact Bool.eq_iff_iff.mpr result

theorem accepts_determinize_two_states :
    let built := ofParts [⟨"p", ⟨true, false⟩⟩, ⟨"q", ⟨false, true⟩⟩] (OrderedSet.ofList ["a", "b"])
      [.plain "p" "a" "p", .plain "p" "a" "q", .plain "q" "ε" "p"]
    ∃ A, built = .ok A ∧ (∀ name ∈ A.stateNames, CommaFree name) ∧
      Symbol.epsilon ∉ ["a", "a"] ∧ A.determinize.accepts ["a", "a"] = true := by
  intro built
  have accepted : built = .ok _ := rfl
  refine ⟨_, accepted, by decide, by decide, ?_⟩
  rw [accepts_determinize accepted (by decide) (by decide)]
  decide

end LanguageTheory.Automaton

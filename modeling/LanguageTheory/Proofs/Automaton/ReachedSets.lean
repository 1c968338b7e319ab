import LanguageTheory.Proofs.Automaton.Determinization

/-!
The sets in which an automaton can be. The subset construction meets such sets only, and it follows
all of them if their names tell them apart, as they do when no state has a comma in its name. Then
it accepts from the state of a set what the automaton accepts from some member of the set
(`SetsApart.acceptsFrom_determinize`).
-/

set_option autoImplicit false
set_option relaxedAutoImplicit false

namespace LanguageTheory.Automaton

variable {A : Automaton}

/-- The automaton is in exactly these states, at least one, after some word without `ε`. -/
def IsReached (A : Automaton) (names : SortedSet StateName) : Prop :=
  (∃ name, name ∈ names) ∧ ∃ word, Symbol.epsilon ∉ word ∧ A.statesAfter word = names

/-- The sets in which the automaton can be have different names. -/
def SetsApart (A : Automaton) : Prop :=
  ∀ c d, A.IsReached c → A.IsReached d → compositeName c = compositeName d → c = d

private theorem isReached_start (fits : A.WellFormed) : A.IsReached A.subsetSystem.start :=
  ⟨(isStateSet_closure_entry fits).1, [], List.not_mem_nil, rfl⟩

private theorem isReached_move (current : SortedSet StateName) (reached : A.IsReached current)
    (symbol : Symbol) (mem : symbol ∈ A.subsetSystem.alphabet) (next : SortedSet StateName)
    (move : A.subsetSystem.move current symbol = some next) : A.IsReached next := by
  obtain ⟨_, word, visible, rfl⟩ := reached
  obtain ⟨rfl, inhabited⟩ := subsetSystem_move.mp move
  have silent : symbol ≠ Symbol.epsilon := of_decide_eq_true (OrderedSet.mem_filter.mp mem).2
  refine ⟨inhabited, word ++ [symbol], ?_, ?_⟩
  · rw [List.mem_append, List.mem_singleton, not_or]
    exact ⟨visible, silent.symm⟩
  · rw [statesAfter, List.foldl_append]
    rfl

private theorem isReached_of_met (fits : A.WellFormed) {bound : Nat} {names : SortedSet StateName}
    (met : names ∈ A.subsetSystem.configurations bound) : A.IsReached names :=
  MoveSystem.configurations_invariant bound (isReached_start fits) isReached_move names met

private theorem IsReached.isStateSet (fits : A.WellFormed) {names : SortedSet StateName}
    (reached : A.IsReached names) : A.IsStateSet names := by
  obtain ⟨inhabited, word, visible, rfl⟩ := reached
  refine ⟨inhabited, fun name mem => ?_⟩
  have way := (mem_statesAfter_iff (readable_of_visible visible)).mp mem
  exact fits.path_mem way fits.entry_mem

private theorem IsReached.closed {names : SortedSet StateName} (reached : A.IsReached names)
    {source target : StateName} (mem : source ∈ names) (way : A.SilentPath source target) :
    target ∈ names := by
  obtain ⟨_, word, visible, rfl⟩ := reached
  have readable := A.readable_of_visible visible
  rw [mem_statesAfter_iff readable] at mem ⊢
  have longer := mem.append way.path
  rwa [List.append_nil] at longer

theorem setsApart_of_commaFree (fits : A.WellFormed)
    (free : ∀ name ∈ A.stateNames, CommaFree name) : A.SetsApart := by
  intro c d reached_c reached_d same
  obtain ⟨⟨_, mem_c⟩, states_c⟩ := reached_c.isStateSet fits
  obtain ⟨⟨_, mem_d⟩, states_d⟩ := reached_d.isStateSet fits
  exact compositeName_inj mem_c mem_d (fun name mem => free name (states_c name mem))
    (fun name mem => free name (states_d name mem)) same

private theorem IsReached.met {bound : Nat}
    (start : A.subsetSystem.start ∈ A.subsetSystem.configurations bound)
    (closed : ∀ c ∈ A.subsetSystem.configurations bound, ∀ d ∈ A.subsetSystem.successors c,
      d ∈ A.subsetSystem.configurations bound) (fits : A.WellFormed) {names : SortedSet StateName}
    (reached : A.IsReached names) : names ∈ A.subsetSystem.configurations bound := by
  obtain ⟨inhabited, word, visible, rfl⟩ := reached
  induction word using List.reverseRecOn with
  | nil => exact start
  | append_singleton word symbol ih =>
    rw [List.mem_append, List.mem_singleton, not_or] at visible
    have moved : A.statesAfter (word ++ [symbol]) = A.advance (A.statesAfter word) symbol := by
      rw [statesAfter, List.foldl_append]
      rfl
    rw [moved] at inhabited ⊢
    obtain ⟨name, mem⟩ := inhabited
    obtain ⟨source, member, _, move, _⟩ := mem_advance_iff.mp mem
    -- The set before the last symbol holds `source`, so the hypothesis applies to it.
    have known := fits.moves_label (Ne.symm visible.2) move
    refine closed _ (ih visible.1 ⟨source, member⟩)
      _ (MoveSystem.mem_successors.mpr ⟨symbol, ?_, ?_⟩)
    · exact OrderedSet.mem_filter.mpr ⟨known, decide_eq_true (Ne.symm visible.2)⟩
    · exact subsetSystem_move.mpr ⟨rfl, name, mem⟩

theorem setsApart_of_met {bound : Nat}
    (start : A.subsetSystem.start ∈ A.subsetSystem.configurations bound)
    (closed : ∀ c ∈ A.subsetSystem.configurations bound, ∀ d ∈ A.subsetSystem.successors c,
      d ∈ A.subsetSystem.configurations bound) (fits : A.WellFormed) : A.SetsApart :=
  fun _ _ reached reached' same => MoveSystem.eq_of_name_eq (reached.met start closed fits)
    (reached'.met start closed fits) same

private theorem visible_of_subsetSystem_accepts {word : Word} {current : SortedSet StateName}
    (accepted : A.subsetSystem.Accepts current word) : Symbol.epsilon ∉ word := by
  induction word generalizing current with
  | nil => exact List.not_mem_nil
  | cons symbol word ih =>
    obtain ⟨mem, next, _, later⟩ := accepted
    have silent : symbol ≠ Symbol.epsilon := of_decide_eq_true (OrderedSet.mem_filter.mp mem).2
    rw [List.mem_cons, not_or]
    exact ⟨silent.symm, ih later⟩

private theorem IsReached.accepts_iff (fits : A.WellFormed) {names : SortedSet StateName}
    (reached : A.IsReached names) {word : Word} : A.subsetSystem.Accepts names word ↔
      Symbol.epsilon ∉ word ∧ ∃ name ∈ names, A.AcceptsFrom name word := by
  have spelled (visible : Symbol.epsilon ∉ word) : A.subsetSystem.Accepts names word ↔
      ∃ name ∈ names, A.AcceptsFrom name word := by
    rw [subsetSystem_accepts_iff fits visible]
    simp only [mem_foldl_advance_iff (readable_of_visible visible)
      fun source mem target way => reached.closed mem way]
    constructor
    · rintro ⟨last, ⟨name, mem, way⟩, isExit⟩
      exact ⟨name, mem, last, way, isExit⟩
    · rintro ⟨name, mem, last, way, isExit⟩
      exact ⟨last, ⟨name, mem, way⟩, isExit⟩
  constructor
  · intro accepted
    have visible := visible_of_subsetSystem_accepts accepted
    exact ⟨visible, (spelled visible).mp accepted⟩
  · rintro ⟨visible, accepted⟩
    exact (spelled visible).mpr accepted

namespace SetsApart

private theorem start_met (apart : A.SetsApart) (fits : A.WellFormed) (bound : Nat) :
    A.subsetSystem.start ∈ A.subsetSystem.configurations bound :=
  MoveSystem.start_mem (isReached_start fits) isReached_move apart

theorem acceptsFrom_determinize (apart : A.SetsApart) (fits : A.WellFormed)
    {names : SortedSet StateName}
    (met : names ∈ A.subsetSystem.configurations (2 ^ A.states.size + 1)) {word : Word} :
    A.determinize.AcceptsFrom (compositeName names) word ↔
      Symbol.epsilon ∉ word ∧ ∃ name ∈ names, A.AcceptsFrom name word := by
  rw [← (isReached_of_met fits met).accepts_iff fits]
  refine MoveSystem.acceptsFrom_automaton (voiced_subsetSystem A _) ?_ met
  intro c met symbol mem d move
  exact MoveSystem.configurations_closed (bounded_subsetSystem fits) (isReached_start fits)
    isReached_move apart met mem move

theorem accepts_determinize_eq (apart : A.SetsApart) (fits : A.WellFormed) {word : Word}
    (visible : Symbol.epsilon ∉ word) : A.determinize.accepts word = A.accepts word := by
  have start : A.determinize.AcceptsFrom A.determinize.entry word ↔ _ :=
    apart.acceptsFrom_determinize fits (apart.start_met fits _)
  rw [← (isReached_start fits).accepts_iff fits, subsetSystem_accepts_iff fits visible] at start
  rw [Bool.eq_iff_iff, (deterministic_determinize A).accepts_iff, accepts_eq]
  exact start.trans List.any_eq_true.symm

end SetsApart

end LanguageTheory.Automaton

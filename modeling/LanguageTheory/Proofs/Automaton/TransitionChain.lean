import LanguageTheory.Proofs.Automaton.Acceptance

/-!
Paths with their transitions. A path that spells a word is a chain of transitions whose labels, with
`ε` left out, are the word (`path_iff_exists_chain`). So `accepts` says whether some chain from the
entry to an accepting state spells the word, and a closure holds what chains of silent transitions
lead to, on cycles as well (`accepts_exact`).
-/

set_option autoImplicit false
set_option relaxedAutoImplicit false

namespace LanguageTheory

namespace Transition

/-- The labels of some transitions, with `ε` left out. -/
def spelled (way : List Transition) : Word :=
  (way.map Transition.label).filter fun label => decide (label ≠ Symbol.epsilon)

private theorem spelled_cons_of_silent {t : Transition} (silent : t.label = Symbol.epsilon)
    (way : List Transition) : spelled (t :: way) = spelled way := by
  simp [spelled, silent]

private theorem spelled_cons_of_visible {t : Transition} (visible : t.label ≠ Symbol.epsilon)
    (way : List Transition) : spelled (t :: way) = t.label :: spelled way := by
  simp [spelled, visible]

theorem spelled_eq_map {way : List Transition}
    (visible : Symbol.epsilon ∉ way.map Transition.label) :
    spelled way = way.map Transition.label :=
  List.filter_eq_self.mpr fun _ mem => decide_eq_true fun silent => visible (silent ▸ mem)

private theorem spelled_eq_nil_iff {way : List Transition} :
    spelled way = [] ↔ ∀ t ∈ way, t.label = Symbol.epsilon := by
  simp [spelled]

end Transition

namespace Automaton

variable {A : Automaton}

/-- Transitions of the automaton, each of which begins where the one before it ends. -/
inductive Chain (A : Automaton) : StateName → List Transition → StateName → Prop
  | stay (name : StateName) : Chain A name [] name
  | take {source target : StateName} {t : Transition} {way : List Transition}
      (mem : t ∈ A.transitions) (leaves : t.source = source) (rest : Chain A t.target way target) :
      Chain A source (t :: way) target

private theorem Path.exists_chain {source target : StateName} {word : Word}
    (path : A.Path source word target) :
    ∃ way, A.Chain source way target ∧ Transition.spelled way = word := by
  induction path with
  | stay name => exact ⟨[], .stay name, rfl⟩
  | silent move _ ih =>
    obtain ⟨t, mem, rfl, silent, rfl⟩ := move
    obtain ⟨way, chain, rfl⟩ := ih
    exact ⟨t :: way, .take mem rfl chain, Transition.spelled_cons_of_silent silent way⟩
  | read visible move _ ih =>
    obtain ⟨t, mem, rfl, rfl, rfl⟩ := move
    obtain ⟨way, chain, rfl⟩ := ih
    exact ⟨t :: way, .take mem rfl chain, Transition.spelled_cons_of_visible visible way⟩

theorem Chain.path {source target : StateName} {way : List Transition}
    (chain : A.Chain source way target) : A.Path source (Transition.spelled way) target := by
  induction chain with
  | stay name => exact .stay name
  | @take source target t way mem leaves _ ih =>
    by_cases silent : t.label = Symbol.epsilon
    · rw [Transition.spelled_cons_of_silent silent]
      exact .silent ⟨t, mem, leaves, silent, rfl⟩ ih
    · rw [Transition.spelled_cons_of_visible silent]
      exact .read silent ⟨t, mem, leaves, rfl, rfl⟩ ih

theorem Chain.mem_transitions {source target : StateName} {way : List Transition}
    (chain : A.Chain source way target) {t : Transition} (taken : t ∈ way) : t ∈ A.transitions := by
  induction chain with
  | stay _ => cases taken
  | take mem _ _ ih =>
    rcases List.mem_cons.mp taken with rfl | later
    · exact mem
    · exact ih later

theorem path_iff_exists_chain {source target : StateName} {word : Word} :
    A.Path source word target ↔ ∃ way, A.Chain source way target ∧
      Transition.spelled way = word := by
  refine ⟨Path.exists_chain, ?_⟩
  rintro ⟨way, chain, rfl⟩
  exact chain.path

private theorem mem_closure_iff_exists_chain {name target : StateName} : target ∈ A.closure name ↔
    ∃ way, A.Chain name way target ∧ ∀ t ∈ way, t.label = Symbol.epsilon := by
  rw [mem_closure_iff, ← path_nil_iff, path_iff_exists_chain]
  simp only [Transition.spelled_eq_nil_iff]

/-- For every automaton: a word without `ε` is accepted exactly if it is spelled on some way from
the entry to an accepting state. The closures used for that hold exactly what silent transitions
alone lead to, and the closure of several states is the union of theirs, in whatever order they are
visited. -/
theorem accepts_exact (A : Automaton) :
    (∀ word, Symbol.epsilon ∉ word → (A.accepts word = true ↔
      ∃ way last, A.Chain A.entry way last ∧ A.isExit last = true ∧
      Transition.spelled way = word)) ∧
    (∀ name target, target ∈ A.closure name ↔
      ∃ way, A.Chain name way target ∧ ∀ t ∈ way, t.label = Symbol.epsilon) ∧
    (∀ names target, target ∈ A.closureOfAll names ↔ ∃ name ∈ names, target ∈ A.closure name) ∧
    ∀ names others, (∀ name, name ∈ names ↔ name ∈ others) →
      A.closureOfAll names = A.closureOfAll others := by
  refine ⟨fun word visible => ?_, fun _ _ => mem_closure_iff_exists_chain,
    fun _ _ => mem_closureOfAll_iff, fun names others same => ?_⟩
  · rw [accepts_iff_recognizes (readable_of_visible visible)]
    constructor
    · rintro ⟨last, path, isExit⟩
      obtain ⟨way, chain, spelled⟩ := path_iff_exists_chain.mp path
      exact ⟨way, last, chain, isExit, spelled⟩
    · rintro ⟨way, last, chain, isExit, spelled⟩
      exact ⟨last, path_iff_exists_chain.mpr ⟨way, chain, spelled⟩, isExit⟩
  · apply SortedSet.ext
    intro target
    simp only [mem_closureOfAll_iff, same]

theorem accepts_exact_silent_cycle :
    let built := ofParts [⟨"p", ⟨true, false⟩⟩, ⟨"q", ⟨false, false⟩⟩, ⟨"r", ⟨false, true⟩⟩]
      (OrderedSet.ofList ["a"]) [.plain "p" "ε" "q", .plain "q" "ε" "p", .plain "q" "a" "r"]
    ∃ A, built = .ok A ∧ Symbol.epsilon ∉ ["a"] ∧ A.accepts ["a"] = true ∧
      "p" ∈ A.closure "q" ∧ A.closureOfAll ["q", "p"] = A.closureOfAll ["p", "q", "p"] := by
  intro built
  have accepted : built = .ok _ := rfl
  obtain ⟨language, closure, _, order⟩ := accepts_exact _
  refine ⟨_, accepted, by decide, (language _ (by decide)).mpr ?_, (closure _ _).mpr ?_,
    order _ _ (by simp [or_comm])⟩
  · refine ⟨[.plain "p" "ε" "q", .plain "q" "a" "r"], "r", ?_, by decide, by decide⟩
    exact .take (by decide) rfl (.take (by decide) rfl (.stay "r"))
  · refine ⟨[.plain "q" "ε" "p"], ?_, by decide⟩
    exact .take (by decide) rfl (.stay "p")

end Automaton

end LanguageTheory

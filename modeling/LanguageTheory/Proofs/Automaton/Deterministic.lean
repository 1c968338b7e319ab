import Mathlib.Data.List.Nodup
import LanguageTheory.Proofs.Automaton.Acceptance

/-!
Deterministic automata. No move is silent, so acceptance can be followed symbol by symbol
(`Voiced.acceptsFrom_cons`), and a state has at most one move on a symbol, so a word leads from a
state to at most one state (`Deterministic.path_unique`).
-/

set_option autoImplicit false
set_option relaxedAutoImplicit false

namespace LanguageTheory.Automaton

variable {A : Automaton}

section Voiced

def Voiced (A : Automaton) : Prop := ∀ source target, ¬ A.Moves source Symbol.epsilon target

private theorem Voiced.visible (voiced : A.Voiced) {source target : StateName} {label : Symbol}
    (move : A.Moves source label target) : label ≠ Symbol.epsilon := by
  rintro rfl
  exact voiced source target move

theorem Voiced.readable (voiced : A.Voiced) (word : Word) : A.Readable word := fun _ => voiced

private theorem Voiced.path_nil (voiced : A.Voiced) {source target : StateName} :
    A.Path source [] target ↔ source = target := by
  constructor
  · intro way
    cases path_nil_iff.mp way with
    | stay name => rfl
    | silent move _ => exact absurd move (voiced _ _)
  · rintro rfl
    exact .stay source

private theorem Voiced.silentPath_iff (voiced : A.Voiced) {source target : StateName} :
    A.SilentPath source target ↔ source = target := path_nil_iff.symm.trans voiced.path_nil

theorem Voiced.closure_eq (voiced : A.Voiced) (name : StateName) :
    A.closure name = .singleton name := by
  apply SortedSet.ext
  intro target
  rw [mem_closure_iff, voiced.silentPath_iff, SortedSet.mem_singleton, eq_comm]

theorem Voiced.mem_advance_singleton (voiced : A.Voiced) {source target : StateName}
    {symbol : Symbol} :
    target ∈ A.advance (.singleton source) symbol ↔ A.Moves source symbol target := by
  simp only [mem_advance_iff, SortedSet.mem_singleton, voiced.silentPath_iff, exists_eq_left,
    exists_eq_right]

private theorem Voiced.path_cons (voiced : A.Voiced) {source target : StateName} {label : Symbol}
    {word : Word} : A.Path source (label :: word) target ↔
      ∃ middle, A.Moves source label middle ∧ A.Path middle word target := by
  constructor
  · intro way
    obtain ⟨_, before, after, silent, move, rest⟩ := path_cons_iff.mp way
    obtain rfl := voiced.silentPath_iff.mp silent
    exact ⟨after, move, rest⟩
  · rintro ⟨middle, move, rest⟩
    exact .read (voiced.visible move) move rest

theorem Voiced.acceptsFrom_nil (voiced : A.Voiced) {name : StateName} :
    A.AcceptsFrom name [] ↔ A.isExit name = true := by
  constructor
  · rintro ⟨last, way, isExit⟩
    exact voiced.path_nil.mp way ▸ isExit
  · exact fun isExit => ⟨name, .stay name, isExit⟩

theorem Voiced.acceptsFrom_cons (voiced : A.Voiced) {name : StateName} {label : Symbol}
    {word : Word} : A.AcceptsFrom name (label :: word) ↔
      ∃ next, A.Moves name label next ∧ A.AcceptsFrom next word := by
  constructor
  · rintro ⟨last, way, isExit⟩
    obtain ⟨next, move, rest⟩ := voiced.path_cons.mp way
    exact ⟨next, move, last, rest, isExit⟩
  · rintro ⟨next, move, last, rest, isExit⟩
    exact ⟨last, voiced.path_cons.mpr ⟨next, move, rest⟩, isExit⟩

end Voiced

theorem deterministic_iff : A.Deterministic ↔
    (∀ t ∈ A.transitions, t.label ≠ Symbol.epsilon) ∧
      ∀ t ∈ A.transitions, ∀ u ∈ A.transitions, t.source = u.source → t.label = u.label →
      t = u := by
  have silent : A.hasSilentTransitions = false ↔
      ∀ t ∈ A.transitions, t.label ≠ Symbol.epsilon := by
    simp [hasSilentTransitions, Transition.isSilent]
  have single : (A.transitions.toList.map fun t => (t.source, t.label)).Nodup ↔
      ∀ t ∈ A.transitions, ∀ u ∈ A.transitions, t.source = u.source → t.label = u.label →
      t = u := by
    constructor
    · intro distinct t ht u hu source label
      exact List.inj_on_of_nodup_map distinct ht hu (by simp [source, label])
    · intro unique
      refine A.transitions.nodup.map_on ?_
      intro t ht u hu same
      obtain ⟨source, label⟩ := Prod.mk.inj same
      exact unique t ht u hu source label
  exact and_congr silent single

theorem Deterministic.voiced (det : A.Deterministic) : A.Voiced := by
  rintro source target ⟨t, mem, _, silent, _⟩
  exact (deterministic_iff.mp det).1 t mem silent

theorem Deterministic.visible (det : A.Deterministic) {source target : StateName} {label : Symbol}
    (move : A.Moves source label target) : label ≠ Symbol.epsilon := det.voiced.visible move

theorem Deterministic.readable (det : A.Deterministic) (word : Word) : A.Readable word :=
  det.voiced.readable word

theorem Deterministic.label_mem (det : A.Deterministic) (fits : A.WellFormed)
    {source target : StateName} {label : Symbol} (move : A.Moves source label target) :
    label ∈ A.alphabet.visible :=
  Alphabet.mem_visible.mpr ⟨fits.moves_label (det.visible move) move, det.visible move⟩

theorem Deterministic.moves_unique (det : A.Deterministic) {source first second : StateName}
    {label : Symbol} (move : A.Moves source label first) (other : A.Moves source label second) :
    first = second := by
  obtain ⟨t, ht, rfl, rfl, rfl⟩ := move
  obtain ⟨u, hu, source, label, rfl⟩ := other
  exact congrArg Transition.target ((deterministic_iff.mp det).2 t ht u hu source.symm label.symm)

theorem Deterministic.path_nil (det : A.Deterministic) {source target : StateName} :
    A.Path source [] target ↔ source = target := det.voiced.path_nil

theorem Deterministic.path_cons (det : A.Deterministic) {source target : StateName}
    {label : Symbol} {word : Word} : A.Path source (label :: word) target ↔
      ∃ middle, A.Moves source label middle ∧ A.Path middle word target := det.voiced.path_cons

theorem Deterministic.path_unique (det : A.Deterministic) {source first second : StateName}
    {word : Word} (way : A.Path source word first) (other : A.Path source word second) :
    first = second := by
  induction word generalizing source with
  | nil => exact (det.path_nil.mp way).symm.trans (det.path_nil.mp other)
  | cons label word ih =>
    obtain ⟨middle, move, rest⟩ := det.path_cons.mp way
    obtain ⟨middle', move', rest'⟩ := det.path_cons.mp other
    obtain rfl := det.moves_unique move move'
    exact ih rest rest'

theorem Deterministic.acceptsFrom_nil (det : A.Deterministic) {name : StateName} :
    A.AcceptsFrom name [] ↔ A.isExit name = true := det.voiced.acceptsFrom_nil

theorem Deterministic.acceptsFrom_cons (det : A.Deterministic) {name : StateName} {label : Symbol}
    {word : Word} : A.AcceptsFrom name (label :: word) ↔
      ∃ next, A.Moves name label next ∧ A.AcceptsFrom next word := det.voiced.acceptsFrom_cons

theorem Deterministic.acceptsFrom_append (det : A.Deterministic) {source target : StateName}
    {u v : Word} (way : A.Path source u target) :
    A.AcceptsFrom source (u ++ v) ↔ A.AcceptsFrom target v := by
  induction u generalizing source with
  | nil =>
    obtain rfl := det.path_nil.mp way
    rfl
  | cons label u ih =>
    obtain ⟨middle, move, rest⟩ := det.path_cons.mp way
    rw [List.cons_append, det.acceptsFrom_cons, ← ih rest]
    constructor
    · rintro ⟨next, move', accepted⟩
      exact det.moves_unique move move' ▸ accepted
    · exact fun accepted => ⟨middle, move, accepted⟩

private theorem Deterministic.exists_path_of_append (det : A.Deterministic) {source : StateName}
    {u v : Word} (accepted : A.AcceptsFrom source (u ++ v)) : ∃ target, A.Path source u target := by
  induction u generalizing source with
  | nil => exact ⟨source, .stay source⟩
  | cons label u ih =>
    obtain ⟨middle, move, later⟩ := det.acceptsFrom_cons.mp accepted
    obtain ⟨target, rest⟩ := ih later
    exact ⟨target, det.path_cons.mpr ⟨middle, move, rest⟩⟩

section Matches

variable {B : Automaton} {p q : StateName}

def Matches (A B : Automaton) (p q : StateName) : Prop :=
  ∀ word, A.AcceptsFrom p word ↔ B.AcceptsFrom q word

theorem Matches.symm (same : A.Matches B p q) : B.Matches A q p := fun word => (same word).symm

theorem Matches.exists_path (same : A.Matches B p q) (det : A.Deterministic)
    (det' : B.Deterministic) {p' : StateName} {word : Word} (way : A.Path p word p')
    (live : ∃ rest, A.AcceptsFrom p' rest) :
    ∃ q', B.Path q word q' ∧ A.Matches B p' q' := by
  obtain ⟨rest, accepted⟩ := live
  have whole := (same (word ++ rest)).mp ((det.acceptsFrom_append way).mpr accepted)
  obtain ⟨q', way'⟩ := det'.exists_path_of_append whole
  refine ⟨q', way', fun later => ?_⟩
  rw [← det.acceptsFrom_append way, ← det'.acceptsFrom_append way', same]

/-- A move to a live state shows in the accepted words, so a state that matches moves alike. -/
theorem Matches.exists_move (same : A.Matches B p q) (det : A.Deterministic)
    (det' : B.Deterministic) {p' : StateName} {label : Symbol} (move : A.Moves p label p')
    (live : ∃ rest, A.AcceptsFrom p' rest) : ∃ q', B.Moves q label q' ∧ A.Matches B p' q' := by
  obtain ⟨q', way, same'⟩ := same.exists_path det det' (det.path_cons.mpr ⟨p', move, .stay p'⟩) live
  obtain ⟨middle, move', rest⟩ := det'.path_cons.mp way
  obtain rfl := det'.path_nil.mp rest
  exact ⟨middle, move', same'⟩

end Matches

theorem Deterministic.accepts_iff (det : A.Deterministic) {word : Word} :
    A.accepts word = true ↔ A.AcceptsFrom A.entry word :=
  accepts_iff_recognizes (det.readable word)

end LanguageTheory.Automaton

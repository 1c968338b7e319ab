import LanguageTheory.Proofs.Automaton.Completion
import LanguageTheory.Proofs.Automaton.Refinement

/-!
What the classes of a deterministic automaton tell apart, its unreachable and dead states included.
A missing move has a signature of its own, other than that of a move into a dead state; so a class
does not only hold states from which the same words are accepted, but states from which also the
same words can be read (`sameClass_iff_twins`). Two states that no word tells apart may thus be in
different classes (`not_forall_sameClass_iff_alike`), unless no move is missing or no move leads to
a dead state (`equivalentClasses_exact`).
-/

set_option autoImplicit false
set_option relaxedAutoImplicit false

namespace LanguageTheory.Automaton

variable {A : Automaton} {p q : StateName}

section Readable

/-- From the state the automaton gets to the end of the word, accepting or not. -/
def CanRead (A : Automaton) (name : StateName) (word : Word) : Prop := ∃ last, A.Path name word last

private theorem Deterministic.canRead_cons (det : A.Deterministic) {name : StateName}
    {label : Symbol} {word : Word} : A.CanRead name (label :: word) ↔
      ∃ next, A.Moves name label next ∧ A.CanRead next word := by
  constructor
  · rintro ⟨last, way⟩
    obtain ⟨next, move, rest⟩ := det.path_cons.mp way
    exact ⟨next, move, last, rest⟩
  · rintro ⟨next, move, last, rest⟩
    exact ⟨last, det.path_cons.mpr ⟨next, move, rest⟩⟩

private theorem Deterministic.canRead_of_move (det : A.Deterministic) {next : StateName}
    {label : Symbol} (move : A.Moves p label next) {word : Word} :
    A.CanRead p (label :: word) ↔ A.CanRead next word := by
  rw [det.canRead_cons]
  constructor
  · rintro ⟨_, move', rest⟩
    exact det.moves_unique move move' ▸ rest
  · exact fun rest => ⟨next, move, rest⟩

private theorem Deterministic.acceptsFrom_of_move (det : A.Deterministic) {next : StateName}
    {label : Symbol} (move : A.Moves p label next) {word : Word} :
    A.AcceptsFrom p (label :: word) ↔ A.AcceptsFrom next word :=
  det.acceptsFrom_append (det.path_cons.mpr ⟨next, move, .stay next⟩)

/-- The same words are accepted from both states, and the same words can be read. -/
def Twins (A : Automaton) (p q : StateName) : Prop :=
  A.Alike p q ∧ ∀ word, A.CanRead p word ↔ A.CanRead q word

private theorem bisimulation_twins (det : A.Deterministic) : A.Bisimulation A.Twins where
  symm _ _ twins := ⟨fun word => (twins.1 word).symm, fun word => (twins.2 word).symm⟩
  exit _ _ twins := twins.1.isExit_eq det
  move p q label next twins move := by
    have read : A.CanRead p [label] := (det.canRead_of_move move).mpr ⟨next, .stay next⟩
    obtain ⟨other, move', _⟩ := det.canRead_cons.mp ((twins.2 [label]).mp read)
    refine ⟨other, move', fun word => ?_, fun word => ?_⟩
    · rw [← det.acceptsFrom_of_move move, ← det.acceptsFrom_of_move move']
      exact twins.1 (label :: word)
    · rw [← det.canRead_of_move move, ← det.canRead_of_move move']
      exact twins.2 (label :: word)

private theorem canRead_of_sameClass (fits : A.WellFormed) (det : A.Deterministic) {word : Word}
    (same : SameClass A.stableClasses p q) (read : A.CanRead p word) : A.CanRead q word := by
  induction word generalizing p q with
  | nil => exact ⟨q, .stay q⟩
  | cons label word ih =>
    obtain ⟨next, move, rest⟩ := det.canRead_cons.mp read
    obtain ⟨other, move', same'⟩ := exists_move_of_sameClass fits det same move
    exact det.canRead_cons.mpr ⟨other, move', ih same' rest⟩

private theorem SameClass.symm {classes : List (SortedSet StateName)}
    (same : SameClass classes p q) :
    SameClass classes q p := by
  obtain ⟨c, hc, hp, hq⟩ := same
  exact ⟨c, hc, hq, hp⟩

/-- A stable class holds the states from which the same words are accepted and the same can be
read. -/
theorem sameClass_iff_twins (fits : A.WellFormed) (det : A.Deterministic) (hp : p ∈ A.stateNames)
    (hq : q ∈ A.stateNames) : SameClass A.stableClasses p q ↔ A.Twins p q := by
  constructor
  · intro same
    exact ⟨alike_of_sameClass fits det same, fun word =>
      ⟨canRead_of_sameClass fits det same, canRead_of_sameClass fits det same.symm⟩⟩
  · exact (bisimulation_twins det).sameClass fits det hp hq

end Readable

section Sink

/-- No move is missing, or no move leads to a state from which nothing is accepted: the automaton
does not have two ways to refuse for good. -/
def OneWayToRefuse (A : Automaton) : Prop :=
  A.Total ∨ ∀ source label target, A.Moves source label target → ∃ word, A.AcceptsFrom target word

private theorem canRead_of_alike (fits : A.WellFormed) (det : A.Deterministic)
    (single : A.OneWayToRefuse) {word : Word} (hq : q ∈ A.stateNames) (alike : A.Alike p q)
    (read : A.CanRead p word) :
    A.CanRead q word := by
  rcases single with total | live
  · obtain ⟨last, way⟩ := read
    obtain ⟨last', _, way'⟩ := total.exists_path fits hq (fits.path_label way)
    exact ⟨last', way'⟩
  · clear hq
    induction word generalizing p q with
    | nil => exact ⟨q, .stay q⟩
    | cons label word ih =>
      obtain ⟨next, move, rest⟩ := det.canRead_cons.mp read
      obtain ⟨other, move', alike'⟩ := alike.exists_move det (live p label next move) move
      exact det.canRead_cons.mpr ⟨other, move', ih alike' rest⟩

private theorem OneWayToRefuse.twins_iff (single : A.OneWayToRefuse) (fits : A.WellFormed)
    (det : A.Deterministic) (hp : p ∈ A.stateNames) (hq : q ∈ A.stateNames) :
    A.Twins p q ↔ A.Alike p q := by
  refine ⟨And.left, fun alike => ⟨alike, fun word => ⟨?_, ?_⟩⟩⟩
  · exact canRead_of_alike fits det single hq alike
  · exact canRead_of_alike fits det single hp fun word => (alike word).symm

end Sink

/-- From `p` and `q` only the empty word is accepted, but `p` moves into a dead state on a symbol on
which `q` has no move. -/
theorem not_forall_sameClass_iff_alike :
    ¬ ∀ (states : List State) (alphabet : Alphabet) (transitions : List Transition) (A : Automaton)
      (classes : List (SortedSet StateName)), ofParts states alphabet transitions = .ok A →
        A.Deterministic → A.equivalentClasses = .ok classes →
        ∀ p ∈ A.stateNames, ∀ q ∈ A.stateNames, (SameClass classes p q ↔ A.Alike p q) := by
  intro told
  obtain ⟨A, classes, built, det, result, moves, exits, states, separated⟩ :
      ∃ A classes, ofParts [⟨"p", ⟨true, true⟩⟩, ⟨"q", ⟨false, true⟩⟩, ⟨"d", ⟨false, false⟩⟩]
          (OrderedSet.ofList ["a"]) [.plain "p" "a" "d"] = .ok A ∧ A.Deterministic ∧
        A.equivalentClasses = .ok classes ∧
        (∀ t ∈ A.transitions.toList, t.source = "p" ∧ t.target = "d") ∧
        (A.isExit "p" = true ∧ A.isExit "q" = true ∧ A.isExit "d" = false) ∧
        ("p" ∈ A.stateNames ∧ "q" ∈ A.stateNames) ∧ ¬ ∃ c ∈ classes, "p" ∈ c ∧ "q" ∈ c :=
    ⟨_, _, rfl, by decide, rfl, by decide, by decide, by decide, by decide⟩
  have stuck {source target : StateName} {label : Symbol} (move : A.Moves source label target) :
      source = "p" ∧ target = "d" := by
    obtain ⟨t, mem, rfl, _, rfl⟩ := move
    exact moves t mem
  have empty {name : StateName} (exit : A.isExit name = true) (word : Word) :
      A.AcceptsFrom name word ↔ word = [] := by
    cases word with
    | nil => simp [det.acceptsFrom_nil, exit]
    | cons label word =>
      simp only [det.acceptsFrom_cons, reduceCtorEq, iff_false]
      rintro ⟨next, move, accepted⟩
      obtain rfl := (stuck move).2
      cases word with
      | nil => simp [det.acceptsFrom_nil, exits.2.2] at accepted
      | cons label word =>
        obtain ⟨_, move, _⟩ := det.acceptsFrom_cons.mp accepted
        exact absurd (stuck move).1 (by decide)
  have alike : A.Alike "p" "q" := fun word => (empty exits.1 word).trans (empty exits.2.1 word).symm
  exact separated ((told _ _ _ A classes built det result "p" states.1 "q" states.2).mpr alike)

/-- The classes of a deterministic automaton partition its states, whether they are reachable and
live or not. Two states are in one class exactly if the same words are accepted from both and the
same words can be read from both; no word tells members of a class apart. If no move is missing or
none leads to a dead state, then also two states that no word tells apart are in one class. -/
theorem equivalentClasses_exact {states : List State} {alphabet : Alphabet}
    {transitions : List Transition} (built : ofParts states alphabet transitions = .ok A)
    (det : A.Deterministic) :
    ∃ classes, A.equivalentClasses = .ok classes ∧ A.Partition classes ∧
      (∀ p ∈ A.stateNames, ∀ q ∈ A.stateNames, (SameClass classes p q ↔
        A.Alike p q ∧ ∀ word, A.CanRead p word ↔ A.CanRead q word)) ∧
      (A.OneWayToRefuse →
        ∀ p ∈ A.stateNames, ∀ q ∈ A.stateNames, (SameClass classes p q ↔ A.Alike p q)) := by
  have fits := wellFormed_of_ofParts built
  refine ⟨A.stableClasses, requireDeterministic_return_eq_ok_iff.mpr ⟨det, rfl⟩,
    (refined_stableClasses A).1, fun p hp q hq => ?_, fun single p hp q hq => ?_⟩
  · exact sameClass_iff_twins fits det hp hq
  · exact (sameClass_iff_twins fits det hp hq).trans (single.twins_iff fits det hp hq)

/-- The states `r` and `s` cannot be reached, `d` and `s` are dead, and no move is missing. -/
theorem equivalentClasses_exact_unreachable :
    ∃ A classes, ofParts [⟨"p", ⟨true, true⟩⟩, ⟨"d", ⟨false, false⟩⟩, ⟨"r", ⟨false, true⟩⟩,
          ⟨"s", ⟨false, false⟩⟩] (OrderedSet.ofList ["a"])
          [.plain "p" "a" "d", .plain "d" "a" "d", .plain "r" "a" "s", .plain "s" "a" "d"] = .ok A ∧
      A.Deterministic ∧ A.equivalentClasses = .ok classes ∧
      classes.map SortedSet.toList = [["p", "r"], ["d", "s"]] ∧
      A.Alike "p" "r" ∧ A.Alike "d" "s" ∧ ¬ A.Alike "p" "d" := by
  obtain ⟨A, classes, built, det, result, members, complete, known, together, apart⟩ :
      ∃ A classes, ofParts [⟨"p", ⟨true, true⟩⟩, ⟨"d", ⟨false, false⟩⟩, ⟨"r", ⟨false, true⟩⟩,
          ⟨"s", ⟨false, false⟩⟩] (OrderedSet.ofList ["a"])
          [.plain "p" "a" "d", .plain "d" "a" "d", .plain "r" "a" "s", .plain "s" "a" "d"] = .ok A ∧
        A.Deterministic ∧ A.equivalentClasses = .ok classes ∧
        classes.map SortedSet.toList = [["p", "r"], ["d", "s"]] ∧ A.missingMoves.isEmpty = true ∧
        A.stateNames = ["p", "d", "r", "s"] ∧
        ((∃ c ∈ classes, "p" ∈ c ∧ "r" ∈ c) ∧ ∃ c ∈ classes, "d" ∈ c ∧ "s" ∈ c) ∧
        ¬ ∃ c ∈ classes, "p" ∈ c ∧ "d" ∈ c :=
    ⟨_, _, rfl, by decide, rfl, rfl, rfl, rfl, by decide, by decide⟩
  obtain ⟨classes', result', _, _, single⟩ := equivalentClasses_exact built det
  obtain rfl : classes = classes' := Except.ok.inj (result.symm.trans result')
  have told := single (.inl (missingMoves_isEmpty_iff.mp complete))
  rw [known] at told
  exact ⟨A, classes, built, det, result, members,
    (told "p" (by decide) "r" (by decide)).mp together.1,
    (told "d" (by decide) "s" (by decide)).mp together.2,
    fun alike => apart ((told "p" (by decide) "d" (by decide)).mpr alike)⟩

end LanguageTheory.Automaton

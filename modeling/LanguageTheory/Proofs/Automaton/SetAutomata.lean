import LanguageTheory.Proofs.Automaton.Minimization
import LanguageTheory.Proofs.Automaton.ReachedSets
import LanguageTheory.Proofs.Regex.Compilation

/-!
Minimization of automata whose states are sets. The name of such a state lists members, and its
words are those of the members. So the words of a class of states can be told from the parts of its
name: classes of one name accept the same words and are one class (`Partwise.classesApart`),
although the names of the states themselves contain commas.
-/

set_option autoImplicit false
set_option relaxedAutoImplicit false

namespace LanguageTheory.Automaton

variable {A : Automaton}

/-- Different classes of states that are left after trimming have different names. -/
def ClassesApart (A : Automaton) : Prop :=
  ∀ c ∈ A.trim.stableClasses, ∀ d ∈ A.trim.stableClasses, compositeName c = compositeName d → c = d

instance (A : Automaton) : Decidable A.ClassesApart :=
  inferInstanceAs (Decidable (∀ c ∈ A.trim.stableClasses, ∀ d ∈ A.trim.stableClasses, _ → _))

/-- Minimization has the given result: a deterministic automaton for the same words, smaller than
which there is none, with one state for each class of states that accept the same words, where
different classes have different names. -/
structure ReducesTo (A M : Automaton) : Prop where
  result : A.minimize = .ok M
  classes : ∀ p ∈ A.trim.states.keys, ∀ q ∈ A.trim.states.keys,
    SameClass A.trim.stableClasses p q ↔ A.Alike p q
  apart : A.ClassesApart
  names : M.states.keys = A.trim.stableClasses.map compositeName
  fits : M.WellFormed
  det : M.Deterministic
  same : ∀ word, M.accepts word = A.accepts word
  smallest : ∀ B : Automaton, B.WellFormed → B.Deterministic →
    (∀ word, B.accepts word = A.accepts word) → M.states.size ≤ B.states.size

private theorem alike_trim_iff (fits : A.WellFormed) {p q : StateName} (hp : p ∈ A.trim.states.keys)
    (hq : q ∈ A.trim.states.keys) : A.trim.Alike p q ↔ A.Alike p q :=
  forall_congr' fun word => by rw [acceptsFrom_trim fits hp, acceptsFrom_trim fits hq]

private theorem sameClass_trim_iff (fits : A.WellFormed) (det : A.Deterministic) {p q : StateName}
    (hp : p ∈ A.trim.states.keys) (hq : q ∈ A.trim.states.keys) :
    SameClass A.trim.stableClasses p q ↔ A.Alike p q := by
  rw [← alike_trim_iff fits hp hq]
  exact ⟨alike_of_sameClass (wellFormed_trim fits) (deterministic_trim det),
    sameClass_trim_of_alike fits det hp hq⟩

theorem ClassesApart.mergeable (apart : A.ClassesApart) (fits : A.WellFormed)
    (det : A.Deterministic) : A.trim.Mergeable A.trim.stableClasses where
  partition := (refined_stableClasses A.trim).1
  alike _ _ := alike_of_sameClass (wellFormed_trim fits) (deterministic_trim det)
  apart := apart

theorem ClassesApart.reducesTo (apart : A.ClassesApart) (fits : A.WellFormed)
    (det : A.Deterministic) : A.ReducesTo (A.trim.mergeClasses A.trim.stableClasses) := by
  have fits_trim := wellFormed_trim fits
  have det_trim := deterministic_trim det
  have mergeable := apart.mergeable fits det
  exact {
    result := minimize_eq_ok_iff.mpr ⟨det, rfl⟩
    classes := fun p hp q hq => sameClass_trim_iff fits det hp hq
    apart := apart
    names := mergeable.entries_mergeClasses.2
    fits := mergeable.wellFormed_mergeClasses fits_trim
    det := mergeable.deterministic_mergeClasses det_trim
    same := mergeable.accepts_trim_mergeClasses fits det
    smallest := fun _ fits_other det_other same =>
      mergeable.size_trim_mergeClasses_le fits det fits_other det_other same }

/-- What a state accepts is what the parts of its name stand for. -/
def Partwise (A : Automaton) : Prop :=
  ∃ reads : List Char → Word → Prop, ∀ name ∈ A.stateNames, ∀ word,
    A.AcceptsFrom name word ↔ ∃ part ∈ nameParts name, reads part word

theorem Partwise.classesApart (partwise : A.Partwise) (fits : A.WellFormed)
    (det : A.Deterministic) : A.ClassesApart := by
  obtain ⟨reads, partwise⟩ := partwise
  have partition := (refined_stableClasses A.trim).1
  -- Members of a class are alike, so the words of one member are those of all parts of the class
  -- name.
  have spelled {c : SortedSet StateName} (hc : c ∈ A.trim.stableClasses) {p : StateName}
      (mem : p ∈ c) (word : Word) :
      A.AcceptsFrom p word ↔ ∃ part ∈ nameParts (compositeName c), reads part word := by
    have state (name : StateName) (member : name ∈ c) := partition.inside c hc name member
    rw [nameParts_compositeName mem]
    constructor
    · intro accepted
      obtain ⟨part, inside, read⟩ :=
        (partwise p (mem_keys_of_trim (state p mem)).2 word).mp accepted
      exact ⟨part, List.mem_flatMap.mpr ⟨p, mem, inside⟩, read⟩
    · rintro ⟨part, inside, read⟩
      obtain ⟨name, member, part_mem⟩ := List.mem_flatMap.mp inside
      have accepted := (partwise name (mem_keys_of_trim (state name member)).2 word).mpr
        ⟨part, part_mem, read⟩
      have alike : A.Alike p name :=
        (sameClass_trim_iff fits det (state p mem) (state name member)).mp
        ⟨c, hc, mem, member⟩
      exact (alike word).mpr accepted
  intro c hc d hd same
  obtain ⟨p, mem_p⟩ := partition.inhabited c hc
  obtain ⟨q, mem_q⟩ := partition.inhabited d hd
  have alike : A.Alike p q := fun word => by rw [spelled hc mem_p, same, spelled hd mem_q]
  obtain ⟨e, he, mem_p', mem_q'⟩ := (sameClass_trim_iff fits det (partition.inside c hc p mem_p)
    (partition.inside d hd q mem_q)).mpr alike
  exact (partition.eq_of_mem hc he mem_p mem_p').trans (partition.eq_of_mem he hd mem_q' mem_q)

private theorem partwise_determinize (fits : A.WellFormed)
    (free : ∀ name ∈ A.stateNames, CommaFree name) :
    A.determinize.Partwise := by
  refine ⟨fun part word => Symbol.epsilon ∉ word ∧ A.AcceptsFrom (String.ofList part) word, ?_⟩
  intro name mem word
  change name ∈ (A.subsetSystem.automaton _).stateNames at mem
  rw [MoveSystem.stateNames_automaton] at mem
  obtain ⟨names, met, rfl⟩ := List.mem_map.mp mem
  obtain ⟨⟨_, inhabited⟩, states⟩ := isStateSet_of_met fits met
  have parts : nameParts (compositeName names) = names.toList.map String.toList := by
    rw [nameParts_compositeName inhabited, ← List.flatMap_pure_eq_map]
    exact List.flatMap_congr fun name mem => nameParts_of_commaFree (free name (states name mem))
  refine ((setsApart_of_commaFree fits free).acceptsFrom_determinize fits met).trans ?_
  change _ ↔ ∃ part ∈ nameParts (compositeName names), _
  rw [parts]
  simp [and_left_comm]

private theorem partwise_automatonOver {r : Regex} (visible : Symbol.epsilon ∉ r.literals)
    (alphabet : Alphabet) : (r.automatonOver alphabet).Partwise := by
  refine ⟨fun part word => (∀ symbol ∈ word, symbol ∈ alphabet) ∧
    ∃ p : Position, (toString p).toList = part ∧ r.Reads p word, ?_⟩
  intro name mem word
  change name ∈ ((r.positionSystem alphabet).automaton _).stateNames at mem
  rw [MoveSystem.stateNames_automaton] at mem
  obtain ⟨positions, met, rfl⟩ := List.mem_map.mp mem
  obtain ⟨⟨_, inhabited⟩, _⟩ := Regex.isPositionSet_of_met met
  have injective {p q : Position} (same : (toString p).toList = (toString q).toList) : p = q :=
    Nat.repr_injective (String.toList_inj.mp same)
  refine (Regex.acceptsFrom_automatonOver visible met).trans ?_
  change _ ↔ ∃ part ∈ nameParts (PositionSet.name positions), _
  rw [PositionSet.nameParts_name inhabited]
  constructor
  · rintro ⟨known, p, mem, reads⟩
    exact ⟨_, List.mem_map.mpr ⟨p, mem, rfl⟩, known, p, rfl, reads⟩
  · rintro ⟨_, mem, known, q, rfl, reads⟩
    obtain ⟨p, member, same⟩ := List.mem_map.mp mem
    exact ⟨known, p, member, injective same ▸ reads⟩

/-- Automata made by the subset construction from an automaton whose state names contain no comma,
and automata of expressions without the literal `ε`, can be minimized. -/
theorem minimize_set_automata :
    (∀ (states : List State) (alphabet : Alphabet) (transitions : List Transition) (A : Automaton),
      ofParts states alphabet transitions = .ok A → (∀ name ∈ A.stateNames, CommaFree name) →
        ∃ M, A.determinize.ReducesTo M) ∧
    ∀ r : Regex, Symbol.epsilon ∉ r.literals → ∀ alphabet : Alphabet,
      ∃ M, (r.automatonOver alphabet).ReducesTo M := by
  constructor
  · intro states alphabet transitions A built free
    have fits := wellFormed_of_ofParts built
    have fits_det := wellFormed_determinize fits
    have det := deterministic_determinize A
    have apart := (partwise_determinize fits free).classesApart fits_det det
    exact ⟨_, apart.reducesTo fits_det det⟩
  · intro r visible alphabet
    have fits := r.wellFormed_automatonOver alphabet
    have det := Regex.deterministic_automatonOver visible alphabet
    have apart := (partwise_automatonOver visible alphabet).classesApart fits det
    exact ⟨_, apart.reducesTo fits det⟩

theorem minimize_set_automata_nested_names :
    let built := ofParts [⟨"p", ⟨true, false⟩⟩, ⟨"q", ⟨false, true⟩⟩, ⟨"r", ⟨false, true⟩⟩]
      (OrderedSet.ofList ["a", "b"])
      [.plain "p" "a" "q", .plain "p" "a" "r", .plain "p" "b" "q", .plain "q" "a" "q"]
    let r := Regex.union (.concat (.literal "a") (.star (.literal "b")))
      (.concat (.literal "c") (.star (.literal "b")))
    (∃ A, built = .ok A ∧ (∀ name ∈ A.stateNames, CommaFree name) ∧
      ∃ M, A.determinize.ReducesTo M ∧ M.states.keys = ["q,q,r", "p"]) ∧
    Symbol.epsilon ∉ r.literals ∧
      ∃ M, (r.automatonOver r.alphabet).ReducesTo M ∧ M.states.keys = ["2,5,4,5", "1,3"] := by
  intro built r
  have accepted : built = .ok _ := rfl
  refine ⟨⟨_, accepted, by decide, ?_⟩, by decide, ?_⟩
  · obtain ⟨M, reduces⟩ := minimize_set_automata.1 _ _ _ _ accepted (by decide)
    exact ⟨M, reduces, reduces.names.trans (by decide +kernel)⟩
  · obtain ⟨M, reduces⟩ := minimize_set_automata.2 r (by decide) r.alphabet
    exact ⟨M, reduces, reduces.names.trans (by decide +kernel)⟩

end LanguageTheory.Automaton

import LanguageTheory.Proofs.Automaton.Product
import LanguageTheory.Proofs.Automaton.SetAutomata

/-!
Minimization gives a canonical form. A condensed automaton is deterministic, every state of it is
reached and can still accept, and different states accept different words. Its states are thus the
sets of words that can still follow, so two condensed automata for the same words are the same up to
the names of their states (`Condensed.exists_isomorphism`), and minimization condenses
(`ClassesApart.condensed`).
-/

set_option autoImplicit false
set_option relaxedAutoImplicit false

namespace LanguageTheory

def Transition.renamed (t : Transition) (name : StateName → StateName) : Transition :=
  { t with source := name t.source, target := name t.target }

namespace Automaton

variable {A B M N : Automaton} {p q : StateName}

/-- A renaming that makes one automaton of another, but for the alphabets. -/
structure Isomorphism (M N : Automaton) (name : StateName → StateName) : Prop where
  bijOn : Set.BijOn name {state | state ∈ M.stateNames} {state | state ∈ N.stateNames}
  entry : name M.entry = N.entry
  exit : ∀ state ∈ M.stateNames, N.isExit (name state) = M.isExit state
  transitions : ∀ t, t ∈ N.transitions ↔ ∃ u ∈ M.transitions, u.renamed name = t

/-- A deterministic automaton in which nothing is superfluous. -/
structure Condensed (M : Automaton) : Prop where
  fits : M.WellFormed
  det : M.Deterministic
  plain : ∀ t ∈ M.transitions, t = .plain t.source t.label t.target
  reached : ∀ state ∈ M.stateNames, ∃ word, M.Path M.entry word state
  live : ∀ state ∈ M.stateNames, ∃ word, M.AcceptsFrom state word
  apart : ∀ p ∈ M.stateNames, ∀ q ∈ M.stateNames, M.Alike p q → p = q

section Uniqueness

private theorem Condensed.exists_match (first : M.Condensed) (second : N.Condensed)
    (same : M.Matches N M.entry N.entry) (mem : p ∈ M.stateNames) :
    ∃ q ∈ N.stateNames, M.Matches N p q := by
  obtain ⟨word, way⟩ := first.reached p mem
  obtain ⟨q, way', found⟩ := same.exists_path first.det second.det way (first.live p mem)
  exact ⟨q, second.fits.path_mem way' second.fits.entry_mem, found⟩

private theorem Condensed.eq_of_matches (second : N.Condensed) {q' : StateName}
    (mem : q ∈ N.stateNames) (mem' : q' ∈ N.stateNames) (same : M.Matches N p q)
    (same' : M.Matches N p q') : q = q' :=
  second.apart q mem q' mem' fun word => (same word).symm.trans (same' word)

/-- The name that each state of the first automaton gets belongs to a state of the second one for
the same words. -/
def Follows (M N : Automaton) (name : StateName → StateName) : Prop :=
  ∀ state ∈ M.stateNames, name state ∈ N.stateNames ∧ M.Matches N state (name state)

private theorem Condensed.exists_follows (first : M.Condensed) (second : N.Condensed)
    (same : M.Matches N M.entry N.entry) : ∃ name, M.Follows N name := by
  have found (state : StateName) : ∃ other, state ∈ M.stateNames →
      other ∈ N.stateNames ∧ M.Matches N state other := by
    by_cases mem : state ∈ M.stateNames
    · obtain ⟨other, known, matched⟩ := first.exists_match second same mem
      exact ⟨other, fun _ => ⟨known, matched⟩⟩
    · exact ⟨state, fun known => absurd known mem⟩
  choose name follows using found
  exact ⟨name, follows⟩

variable {name : StateName → StateName}

private theorem Condensed.bijOn (first : M.Condensed) (second : N.Condensed)
    (same : M.Matches N M.entry N.entry) (follows : M.Follows N name) :
    Set.BijOn name {state | state ∈ M.stateNames} {state | state ∈ N.stateNames} := by
  refine ⟨fun state mem => (follows state mem).1, fun p hp q hq equal => ?_, fun q hq => ?_⟩
  · refine first.eq_of_matches hp hq (follows p hp).2.symm ?_
    rw [equal]
    exact (follows q hq).2.symm
  · obtain ⟨p, hp, back⟩ := second.exists_match first same.symm hq
    exact ⟨p, hp, second.eq_of_matches (follows p hp).1 hq (follows p hp).2 back.symm⟩

private theorem Condensed.moves_iff (first : M.Condensed) (second : N.Condensed)
    (follows : M.Follows N name) (mem : p ∈ M.stateNames) {label : Symbol} {target : StateName} :
    N.Moves (name p) label target ↔ ∃ p', M.Moves p label p' ∧ name p' = target := by
  have same := (follows p mem).2
  constructor
  · intro move
    have inside := (second.fits.moves_mem move).2
    obtain ⟨p', move', found⟩ :=
      same.symm.exists_move second.det first.det move (second.live _ inside)
    obtain ⟨inside', same'⟩ := follows p' (first.fits.moves_mem move').2
    exact ⟨p', move', second.eq_of_matches inside' inside same' found.symm⟩
  · rintro ⟨p', move, rfl⟩
    have inside := (first.fits.moves_mem move).2
    obtain ⟨q', move', found⟩ := same.exists_move first.det second.det move (first.live _ inside)
    obtain ⟨inside', same'⟩ := follows p' inside
    rwa [second.eq_of_matches inside' (second.fits.moves_mem move').2 same' found]

private theorem Condensed.mem_transitions_iff (first : M.Condensed) (second : N.Condensed)
    (same : M.Matches N M.entry N.entry) (follows : M.Follows N name) {t : Transition} :
    t ∈ N.transitions ↔ ∃ u ∈ M.transitions, u.renamed name = t := by
  constructor
  · intro mem
    obtain ⟨state, known, source⟩ :=
      (first.bijOn second same follows).surjOn (second.fits.source_mem t mem)
    have move : N.Moves (name state) t.label t.target := ⟨t, mem, source.symm, rfl, rfl⟩
    obtain ⟨next, ⟨u, edge, rfl, label, rfl⟩, target⟩ :=
      (first.moves_iff second follows known).mp move
    refine ⟨u, edge, ?_⟩
    rw [first.plain u edge, second.plain t mem, ← source, ← target, ← label]
    rfl
  · rintro ⟨u, edge, rfl⟩
    have move : M.Moves u.source u.label u.target := ⟨u, edge, rfl, rfl, rfl⟩
    obtain ⟨t, mem, source, label, target⟩ :=
      (first.moves_iff second follows (first.fits.source_mem u edge)).mpr ⟨u.target, move, rfl⟩
    have equal : u.renamed name = t := by
      rw [first.plain u edge, second.plain t mem, source, label, target]
      rfl
    rwa [equal]

theorem Condensed.exists_isomorphism (first : M.Condensed) (second : N.Condensed)
    (same : M.Matches N M.entry N.entry) : ∃ name, M.Isomorphism N name := by
  obtain ⟨name, follows⟩ := first.exists_follows second same
  refine ⟨name, first.bijOn second same follows, ?_, fun state mem => ?_,
    fun t => first.mem_transitions_iff second same follows⟩
  · obtain ⟨known, matched⟩ := follows M.entry first.fits.entry_mem
    exact second.eq_of_matches known second.fits.entry_mem matched same
  · rw [Bool.eq_iff_iff, ← first.det.acceptsFrom_nil, ← second.det.acceptsFrom_nil]
    exact ((follows state mem).2 []).symm

end Uniqueness

section Condensing

variable {classes : List (SortedSet StateName)}

theorem Mergeable.exists_member (mergeable : A.Mergeable classes)
    (mem : p ∈ (A.mergeClasses classes).stateNames) :
    ∃ name ∈ A.states.keys, className classes name = p := by
  rw [stateNames, mergeable.entries_mergeClasses.2] at mem
  obtain ⟨c, hc, rfl⟩ := List.mem_map.mp mem
  obtain ⟨name, inside⟩ := mergeable.partition.inhabited c hc
  exact ⟨name, mergeable.partition.inside c hc name inside,
    mergeable.partition.className_eq hc inside⟩

private theorem Mergeable.className_eq_of_sameClass (mergeable : A.Mergeable classes)
    (same : SameClass classes p q) : className classes p = className classes q := by
  obtain ⟨c, hc, mem, mem'⟩ := same
  rw [mergeable.partition.className_eq hc mem, mergeable.partition.className_eq hc mem']

theorem classesApart_of_commaFree (fits : A.WellFormed) (det : A.Deterministic)
    (free : ∀ name ∈ A.stateNames, CommaFree name) : A.ClassesApart :=
  (mergeable_stableClasses (wellFormed_trim fits) (deterministic_trim det)
    fun name mem => free name (mem_keys_of_trim mem).2).apart

private theorem live_trim (fits : A.WellFormed) (inhabited : ∃ word, A.AcceptsFrom A.entry word) :
    ∀ name ∈ A.trim.states.keys, ∃ word, A.trim.AcceptsFrom name word := by
  obtain ⟨word, accepted⟩ := inhabited
  rcases live_or_single_trim fits with live | single
  · exact live
  · intro name mem
    obtain rfl : name = A.entry := single name mem
    exact ⟨word, (acceptsFrom_trim fits mem).mpr accepted⟩

theorem ClassesApart.condensed (apart : A.ClassesApart) (fits : A.WellFormed)
    (det : A.Deterministic) (inhabited : ∃ word, A.AcceptsFrom A.entry word) :
    (A.trim.mergeClasses A.trim.stableClasses).Condensed := by
  have fits_trim := wellFormed_trim fits
  have det_trim := deterministic_trim det
  have mergeable := apart.mergeable fits det
  have fits_merged := mergeable.wellFormed_mergeClasses fits_trim
  have det_merged := mergeable.deterministic_mergeClasses det_trim
  have matched {name : StateName} (mem : name ∈ A.trim.states.keys) :
      A.trim.Matches (A.trim.mergeClasses A.trim.stableClasses) name
        (className A.trim.stableClasses name) :=
    fun _ => (mergeable.acceptsFrom_mergeClasses fits_trim det_trim mem).symm
  have distinct (p : StateName) (hp : p ∈ (A.trim.mergeClasses A.trim.stableClasses).stateNames)
      (q : StateName) (hq : q ∈ (A.trim.mergeClasses A.trim.stableClasses).stateNames)
      (alike : (A.trim.mergeClasses A.trim.stableClasses).Alike p q) : p = q := by
    obtain ⟨name, mem, rfl⟩ := mergeable.exists_member hp
    obtain ⟨other, mem', rfl⟩ := mergeable.exists_member hq
    refine mergeable.className_eq_of_sameClass
      (sameClass_trim_of_alike fits det mem mem' fun word => ?_)
    exact (matched mem word).trans ((alike word).trans (matched mem' word).symm)
  have live := live_trim fits inhabited
  refine ⟨fits_merged, det_merged, fun t mem => ?_, fun state mem => ?_, fun state mem => ?_,
    distinct⟩
  · obtain ⟨_, _, _, _, _, _, _, rfl⟩ := mem_transitions_mergeClasses.mp mem
    rfl
  · -- The word that reaches a member reaches a state for the same words, and there is no other such
    -- one.
    obtain ⟨name, known, rfl⟩ := mergeable.exists_member mem
    obtain ⟨word, way⟩ := exists_path_trim fits known
    obtain ⟨state, way', same⟩ := (matched fits_trim.entry_mem).exists_path det_trim det_merged way
      (live name known)
    have inside := fits_merged.path_mem way' fits_merged.entry_mem
    obtain rfl : state = className A.trim.stableClasses name :=
      distinct state inside _ mem fun rest => (same rest).symm.trans (matched known rest)
    exact ⟨word, way'⟩
  · obtain ⟨name, known, rfl⟩ := mergeable.exists_member mem
    obtain ⟨word, accepted⟩ := live name known
    exact ⟨word, (matched known word).mp accepted⟩

end Condensing

/-- Deterministic automata that accept the same words, at least one, have the same smallest
automaton, up to the names of its states; the names of their own states must contain no comma. -/
theorem minimize_canonical {states states' : List State} {alphabet alphabet' : Alphabet}
    {transitions transitions' : List Transition}
    (built : ofParts states alphabet transitions = .ok A)
    (built' : ofParts states' alphabet' transitions' = .ok B) (det : A.Deterministic)
    (det' : B.Deterministic) (free : ∀ name ∈ A.stateNames, CommaFree name)
    (free' : ∀ name ∈ B.stateNames, CommaFree name) (same : ∀ word, A.accepts word = B.accepts word)
    (inhabited : ∃ word, A.accepts word = true) :
    ∃ M N name, A.minimize = .ok M ∧ B.minimize = .ok N ∧ M.Isomorphism N name := by
  have fits := wellFormed_of_ofParts built
  have fits' := wellFormed_of_ofParts built'
  have apart := classesApart_of_commaFree fits det free
  have apart' := classesApart_of_commaFree fits' det' free'
  have reduces := apart.reducesTo fits det
  have reduces' := apart'.reducesTo fits' det'
  obtain ⟨word, accepted⟩ := inhabited
  have first := apart.condensed fits det ⟨word, det.accepts_iff.mp accepted⟩
  have second := apart'.condensed fits' det' ⟨word, det'.accepts_iff.mp (same word ▸ accepted)⟩
  obtain ⟨name, isomorphism⟩ := first.exists_isomorphism second fun word => by
    rw [← first.det.accepts_iff, ← second.det.accepts_iff, reduces.same,
      reduces'.same, same]
  exact ⟨_, _, name, reduces.result, reduces'.result, isomorphism⟩

/-- One automaton has an unreachable state, the other has a state named for each pair of equal
states that is reached; both have a dead state. -/
theorem minimize_canonical_pairs :
    let built := ofParts [⟨"p", ⟨true, false⟩⟩, ⟨"q", ⟨false, true⟩⟩, ⟨"r", ⟨false, true⟩⟩,
        ⟨"s", ⟨false, false⟩⟩, ⟨"u", ⟨false, true⟩⟩] (OrderedSet.ofList ["a", "b"])
      [.plain "p" "a" "q", .plain "p" "b" "r", .plain "q" "a" "r", .plain "r" "a" "q",
        .plain "q" "b" "s", .plain "u" "a" "q"]
    let built' := ofParts [⟨"p;p", ⟨true, false⟩⟩, ⟨"q;q", ⟨false, true⟩⟩, ⟨"r;r", ⟨false, true⟩⟩,
        ⟨"s;s", ⟨false, false⟩⟩] (OrderedSet.ofList ["a", "b"])
      [.plain "p;p" "a" "q;q", .plain "p;p" "b" "r;r", .plain "q;q" "a" "r;r",
        .plain "q;q" "b" "s;s", .plain "r;r" "a" "q;q"]
    ∃ A B M N name, built = .ok A ∧ built' = .ok B ∧ (∀ word, A.accepts word = B.accepts word) ∧
      A.accepts ["b", "a"] = true ∧ A.minimize = .ok M ∧ B.minimize = .ok N ∧
      M.stateNames = ["q,r", "p"] ∧ N.stateNames = ["q;q,r;r", "p;p"] ∧ M.Isomorphism N name := by
  intro built built'
  obtain ⟨A, B, accepted, accepted', paired, det, free, free', accepting⟩ :
      ∃ A B, built = .ok A ∧ built' = .ok B ∧ B = A.product A ∧ A.Deterministic ∧
        (∀ name ∈ A.stateNames, CommaFree name) ∧ (∀ name ∈ B.stateNames, CommaFree name) ∧
        A.accepts ["b", "a"] = true :=
    ⟨_, _, rfl, rfl, by decide +kernel, by decide, by decide, by decide, by decide⟩
  have fits := wellFormed_of_ofParts accepted
  have det' : B.Deterministic := paired ▸ deterministic_product det det
  have same (word : Word) : A.accepts word = B.accepts word := by
    rw [paired, Bool.eq_iff_iff, accepts_product fits fits det det, and_self]
  obtain ⟨M, N, name, result, result', isomorphism⟩ :=
    minimize_canonical accepted accepted' det det' free free' same ⟨_, accepting⟩
  refine ⟨A, B, M, N, name, accepted, accepted', same, accepting, result, result', ?_, ?_,
    isomorphism⟩
  · obtain rfl := Except.ok.inj accepted
    obtain rfl := Except.ok.inj result
    decide +kernel
  · obtain rfl := Except.ok.inj accepted'
    obtain rfl := Except.ok.inj result'
    decide +kernel

end Automaton

end LanguageTheory

import LanguageTheory.Proofs.Automaton.CanonicalForm

/-!
Minimization changes nothing about its own result. In an irreducible automaton every state is
reached, every state but the entry can still accept, and different states accept different words. So
trimming keeps all of it, every class has one member and the name of this member, and merging gives
the parts back (`Irreducible.same_mergeClasses`). What minimization gives is irreducible
(`ClassesApart.irreducible`), also where nothing is accepted and only the entry is left. The names
may contain commas by then.
-/

set_option autoImplicit false
set_option relaxedAutoImplicit false

namespace LanguageTheory.Automaton

variable {A M : Automaton} {p q : StateName}

/-- A deterministic automaton in which nothing is superfluous, except that its entry may be dead. -/
structure Irreducible (M : Automaton) : Prop where
  fits : M.WellFormed
  det : M.Deterministic
  plain : ∀ t ∈ M.transitions, t = .plain t.source t.label t.target
  reached : ∀ state ∈ M.stateNames, ∃ word, M.Path M.entry word state
  live : ∀ state ∈ M.stateNames, (∃ word, M.AcceptsFrom state word) ∨ state = M.entry
  apart : ∀ p ∈ M.stateNames, ∀ q ∈ M.stateNames, M.Alike p q → p = q

section FixedPoint

private theorem Irreducible.trim_eq_self (irreducible : M.Irreducible) : M.trim = M := by
  have fits := irreducible.fits
  have live : M.removeDeadStates = M :=
    restrict_eq_self fits fun state mem => (live_or_entry_iff fits).mpr (irreducible.live state mem)
  rw [trim, live]
  exact restrict_eq_self fits fun state mem =>
    (reachable_iff fits).mpr (irreducible.reached state mem)

private theorem Irreducible.mem_stableClasses (irreducible : M.Irreducible)
    {c : SortedSet StateName} :
    c ∈ M.stableClasses ↔ ∃ state ∈ M.stateNames, c = .singleton state := by
  have partition := (refined_stableClasses M).1
  have single (c : SortedSet StateName) (hc : c ∈ M.stableClasses) (state : StateName)
      (mem : state ∈ c) : c = .singleton state := by
    apply SortedSet.ext
    intro other
    rw [SortedSet.mem_singleton]
    constructor
    · intro mem'
      exact irreducible.apart other (partition.inside c hc other mem') state
        (partition.inside c hc state mem)
        (alike_of_sameClass irreducible.fits irreducible.det ⟨c, hc, mem', mem⟩)
    · rintro rfl
      exact mem
  constructor
  · intro hc
    obtain ⟨state, mem⟩ := partition.inhabited c hc
    exact ⟨state, partition.inside c hc state mem, single c hc state mem⟩
  · rintro ⟨state, known, rfl⟩
    obtain ⟨c, hc, mem⟩ := partition.cover state known
    exact single c hc state mem ▸ hc

private theorem Irreducible.mergeable (irreducible : M.Irreducible) :
    M.Mergeable M.stableClasses where
  partition := (refined_stableClasses M).1
  alike _ _ := alike_of_sameClass irreducible.fits irreducible.det
  apart c hc d hd same := by
    obtain ⟨p, _, rfl⟩ := irreducible.mem_stableClasses.mp hc
    obtain ⟨q, _, rfl⟩ := irreducible.mem_stableClasses.mp hd
    rw [compositeName_singleton, compositeName_singleton] at same
    rw [same]

private theorem Irreducible.className_eq (irreducible : M.Irreducible) (mem : p ∈ M.stateNames) :
    className M.stableClasses p = p := by
  rw [irreducible.mergeable.partition.className_eq (irreducible.mem_stableClasses.mpr ⟨p, mem, rfl⟩)
    (SortedSet.mem_singleton.mpr rfl), compositeName_singleton]

private theorem WellFormed.role_eq (fits : M.WellFormed) {role : StateRole}
    (found : M.states.get? p = some role) : role = ⟨decide (M.entry = p), M.isExit p⟩ := by
  have exit : M.isExit p = role.isExit := by rw [isExit, found, Option.map_some, Option.getD_some]
  have entry : role.isEntry = decide (M.entry = p) := by
    rw [Bool.eq_iff_iff, decide_eq_true_iff]
    constructor
    · exact fun isEntry => (fits.entry_unique p role found isEntry).symm
    · rintro rfl
      obtain ⟨other, found', isEntry⟩ := fits.entry_role
      rwa [Option.some.inj (found.symm.trans found')]
  rw [exit, ← entry]

private theorem Irreducible.get?_mergeClasses (irreducible : M.Irreducible) (name : StateName)
    (role : StateRole) : (M.mergeClasses M.stableClasses).states.get? name = some role ↔
      M.states.get? name = some role := by
  rw [irreducible.mergeable.get?_mergeClasses]
  constructor
  · rintro ⟨c, hc, least, found, rfl, rfl⟩
    obtain ⟨state, mem, rfl⟩ := irreducible.mem_stableClasses.mp hc
    obtain rfl : state = least := Option.some.inj found
    obtain ⟨role, found⟩ := OrderedTable.mem_keys_iff.mp mem
    rw [compositeName_singleton, found, irreducible.fits.role_eq found]
    simp only [SortedSet.mem_singleton]
  · intro found
    have mem := OrderedTable.mem_keys_of_get? found
    refine ⟨.singleton name, irreducible.mem_stableClasses.mpr ⟨name, mem, rfl⟩, name, rfl,
      compositeName_singleton name, ?_⟩
    rw [irreducible.fits.role_eq found]
    simp only [SortedSet.mem_singleton]

private theorem Irreducible.mem_transitions_mergeClasses (irreducible : M.Irreducible)
    (t : Transition) :
    t ∈ (M.mergeClasses M.stableClasses).transitions ↔ t ∈ M.transitions := by
  have renamed (u : Transition) (mem : u ∈ M.transitions) :
      .plain (compositeName (.singleton u.source)) u.label (className M.stableClasses u.target) =
      u := by
    rw [compositeName_singleton, irreducible.className_eq (irreducible.fits.target_mem u mem)]
    exact (irreducible.plain u mem).symm
  rw [Automaton.mem_transitions_mergeClasses]
  constructor
  · rintro ⟨c, hc, least, found, u, mem, rfl, rfl⟩
    obtain ⟨state, _, rfl⟩ := irreducible.mem_stableClasses.mp hc
    obtain rfl : state = u.source := Option.some.inj found
    rwa [renamed u mem]
  · intro mem
    exact ⟨.singleton t.source,
      irreducible.mem_stableClasses.mpr ⟨t.source, irreducible.fits.source_mem t mem, rfl⟩,
      t.source, rfl, t, mem, rfl, renamed t mem⟩

theorem Irreducible.same_mergeClasses (irreducible : M.Irreducible) :
    (M.mergeClasses M.stableClasses).Same M := by
  refine ⟨OrderedTable.same_of_get?_iff irreducible.get?_mergeClasses, ?_, ?_, ?_⟩
  · exact OrderedSet.same_iff.mpr fun _ => Iff.rfl
  · exact OrderedSet.same_iff.mpr irreducible.mem_transitions_mergeClasses
  · exact irreducible.className_eq irreducible.fits.entry_mem

private theorem Irreducible.exists_minimize (irreducible : M.Irreducible) :
    ∃ N, M.minimize = .ok N ∧ N.Same M := by
  refine ⟨M.mergeClasses M.stableClasses, ?_, irreducible.same_mergeClasses⟩
  rw [minimize_eq_ok_iff, irreducible.trim_eq_self]
  exact ⟨irreducible.det, rfl⟩

end FixedPoint

section Result

private theorem Condensed.irreducible (condensed : M.Condensed) : M.Irreducible :=
  ⟨condensed.fits, condensed.det, condensed.plain, condensed.reached,
    fun state mem => Or.inl (condensed.live state mem), condensed.apart⟩

theorem ClassesApart.irreducible (apart : A.ClassesApart) (fits : A.WellFormed)
    (det : A.Deterministic) : (A.trim.mergeClasses A.trim.stableClasses).Irreducible := by
  by_cases inhabited : ∃ word, A.AcceptsFrom A.entry word
  · exact (apart.condensed fits det inhabited).irreducible
  · have mergeable := apart.mergeable fits det
    have fits_trim := wellFormed_trim fits
    -- Nothing is accepted, so the entry is the only state.
    have single (state : StateName)
        (mem : state ∈ (A.trim.mergeClasses A.trim.stableClasses).stateNames) :
        state = (A.trim.mergeClasses A.trim.stableClasses).entry := by
      obtain ⟨name, known, rfl⟩ := mergeable.exists_member mem
      rcases live_or_single_trim fits with live | only
      · obtain ⟨word, accepted⟩ := live A.entry fits_trim.entry_mem
        exact absurd ⟨word, (acceptsFrom_trim fits fits_trim.entry_mem).mp accepted⟩ inhabited
      · rw [only name known]
        rfl
    refine ⟨mergeable.wellFormed_mergeClasses fits_trim,
      mergeable.deterministic_mergeClasses (deterministic_trim det), fun t mem => ?_,
      fun state mem => ?_, fun state mem => Or.inr (single state mem), fun p hp q hq _ => ?_⟩
    · obtain ⟨_, _, _, _, _, _, _, rfl⟩ := Automaton.mem_transitions_mergeClasses.mp mem
      rfl
    · exact ⟨[], single state mem ▸ .stay _⟩
    · exact (single p hp).trans (single q hq).symm

end Result

/-- Minimizing the smallest automaton gives it once more: the same states with the same roles, the
same entry, alphabet and transitions. -/
theorem minimize_idempotent {states : List State} {alphabet : Alphabet}
    {transitions : List Transition} (built : ofParts states alphabet transitions = .ok A)
    (det : A.Deterministic) (free : ∀ name ∈ A.stateNames, CommaFree name) :
    ∃ M N, A.minimize = .ok M ∧ M.minimize = .ok N ∧ N.Same M := by
  have fits := wellFormed_of_ofParts built
  have apart := classesApart_of_commaFree fits det free
  obtain ⟨N, result, same⟩ := (apart.irreducible fits det).exists_minimize
  exact ⟨_, N, (apart.reducesTo fits det).result, result, same⟩

/-- The smallest automaton has a state named for two states, and the second run lists its states in
another order. -/
theorem minimize_idempotent_joined_name :
    let built := ofParts [⟨"p", ⟨true, false⟩⟩, ⟨"q", ⟨false, true⟩⟩, ⟨"r", ⟨false, true⟩⟩,
        ⟨"s", ⟨false, false⟩⟩, ⟨"q!", ⟨false, true⟩⟩] (OrderedSet.ofList ["a", "b"])
      [.plain "p" "a" "q", .plain "p" "b" "r", .plain "q" "a" "q!", .plain "r" "a" "q!",
        .plain "q" "b" "s"]
    ∃ A M N, built = .ok A ∧ A.minimize = .ok M ∧ M.stateNames = ["q,r", "q!", "p"] ∧
      M.minimize = .ok N ∧ N.stateNames = ["q!", "q,r", "p"] ∧ N.Same M := by
  intro built
  have accepted : built = .ok _ := rfl
  obtain ⟨M, N, result, result', same⟩ := minimize_idempotent accepted (by decide) (by decide)
  refine ⟨_, M, N, accepted, result, ?_, result', ?_, same⟩
  · obtain rfl := Except.ok.inj result
    decide +kernel
  · obtain rfl := Except.ok.inj result
    obtain rfl := Except.ok.inj result'
    decide +kernel

end LanguageTheory.Automaton

import LanguageTheory.Proofs.Automaton.Construction
import LanguageTheory.Proofs.Automaton.Reachability
import LanguageTheory.Proofs.Automaton.Refinement
import LanguageTheory.Proofs.CompositeName

/-!
Minimization. Merging the classes of a partition gives a deterministic automaton whose states accept
what the members of their classes accept, as long as the names of the classes tell them apart. The
trimmed automaton has one state for every set of words that can still follow, and an automaton for
the same words needs a state for each of them, so no deterministic automaton is smaller
(`minimize_exact`).
-/

set_option autoImplicit false
set_option relaxedAutoImplicit false

namespace LanguageTheory.Automaton

variable {A : Automaton} {classes : List (SortedSet StateName)}

/-- The classes partition the states into states that are alike, and have different names. -/
structure Mergeable (A : Automaton) (classes : List (SortedSet StateName)) : Prop where
  partition : A.Partition classes
  alike : ∀ p q, SameClass classes p q → A.Alike p q
  apart : ∀ c ∈ classes, ∀ d ∈ classes, compositeName c = compositeName d → c = d

section Merge

theorem Partition.exists_least? (partition : A.Partition classes) {c : SortedSet StateName}
    (hc : c ∈ classes) : ∃ least, c.least? = some least := by
  obtain ⟨name, mem⟩ := partition.inhabited c hc
  exact SortedSet.exists_least? mem

theorem Partition.className_eq (partition : A.Partition classes) {c : SortedSet StateName}
    {name : StateName} (hc : c ∈ classes) (mem : name ∈ c) :
    className classes name = compositeName c := by
  unfold className
  cases found : classes.find? fun states => decide (name ∈ states) with
  | none =>
    have outside := List.find?_eq_none.mp found c hc
    exact absurd (decide_eq_true mem) outside
  | some d =>
    have inside : name ∈ d := by simpa using List.find?_some found
    rw [partition.eq_of_mem hc (List.mem_of_find?_eq_some found) mem inside]
    rfl

theorem Mergeable.entries_mergeClasses (mergeable : A.Mergeable classes) :
    (A.mergeClasses classes).states.entries = (classes.filterMap fun states =>
      states.least?.map fun least =>
        (compositeName states, ⟨decide (A.entry ∈ states), A.isExit least⟩)) ∧
    (A.mergeClasses classes).states.keys = classes.map compositeName := by
  have names : ((classes.filterMap fun states => states.least?.map fun least =>
      (compositeName states, StateRole.mk (decide (A.entry ∈ states)) (A.isExit least))).map
        Prod.fst) = classes.map compositeName := by
    rw [List.map_filterMap, ← List.filterMap_eq_map']
    apply List.filterMap_congr
    intro c hc
    obtain ⟨least, found⟩ := mergeable.partition.exists_least? hc
    rw [found, Option.map_some, Option.map_some]
  have distinct : (classes.map compositeName).Nodup :=
    mergeable.partition.nodup.map_on mergeable.apart
  have entries := OrderedTable.entries_ofList (names ▸ distinct)
  refine ⟨entries, ?_⟩
  rw [OrderedTable.keys, mergeClasses, entries, names]

private theorem Mergeable.size_mergeClasses (mergeable : A.Mergeable classes) :
    (A.mergeClasses classes).states.size = classes.length := by
  have names := congrArg List.length mergeable.entries_mergeClasses.2
  rwa [OrderedTable.keys, List.length_map, List.length_map] at names

theorem Mergeable.get?_mergeClasses (mergeable : A.Mergeable classes) {name : StateName}
    {role : StateRole} : (A.mergeClasses classes).states.get? name = some role ↔
      ∃ c ∈ classes, ∃ least, c.least? = some least ∧ compositeName c = name ∧
        role = ⟨decide (A.entry ∈ c), A.isExit least⟩ := by
  rw [OrderedTable.get?_eq_some_iff, mergeable.entries_mergeClasses.1, List.mem_filterMap]
  refine exists_congr fun c => and_congr_right fun _ => ?_
  rw [Option.map_eq_some_iff]
  refine exists_congr fun least => and_congr_right fun _ => ?_
  rw [Prod.mk.injEq, eq_comm (b := role)]

private theorem Mergeable.isExit_mergeClasses (mergeable : A.Mergeable classes)
    {c : SortedSet StateName} {least : StateName} (hc : c ∈ classes)
    (found : c.least? = some least) :
    (A.mergeClasses classes).isExit (compositeName c) = A.isExit least := by
  have role := mergeable.get?_mergeClasses.mpr ⟨c, hc, least, found, rfl, rfl⟩
  rw [isExit, role]
  rfl

theorem mem_transitions_mergeClasses {t : Transition} : t ∈ (A.mergeClasses classes).transitions ↔
    ∃ c ∈ classes, ∃ least, c.least? = some least ∧ ∃ u ∈ A.transitions, u.source = least ∧
      .plain (compositeName c) u.label (className classes u.target) = t := by
  rw [mergeClasses, OrderedSet.mem_ofList, List.mem_flatMap]
  refine exists_congr fun c => and_congr_right fun _ => ?_
  cases c.least? with
  | none => simp
  | some least =>
    simp only [transitionsFrom, List.mem_map, List.mem_filter, OrderedSet.mem_toList,
      decide_eq_true_eq, Option.some.injEq, exists_eq_left', and_assoc]

private theorem Mergeable.moves_mergeClasses (mergeable : A.Mergeable classes)
    {c : SortedSet StateName} {least next : StateName} {symbol : Symbol} (hc : c ∈ classes)
    (found : c.least? = some least) : (A.mergeClasses classes).Moves (compositeName c) symbol next ↔
      ∃ target, A.Moves least symbol target ∧ className classes target = next := by
  constructor
  · rintro ⟨t, mem, source, rfl, rfl⟩
    obtain ⟨d, hd, other, found', u, hu, rfl, rfl⟩ := mem_transitions_mergeClasses.mp mem
    obtain rfl := mergeable.apart d hd c hc source
    obtain rfl := Option.some.inj (found.symm.trans found')
    exact ⟨u.target, ⟨u, hu, rfl, rfl, rfl⟩, rfl⟩
  · rintro ⟨_, ⟨u, hu, rfl, rfl, rfl⟩, rfl⟩
    exact ⟨_, mem_transitions_mergeClasses.mpr ⟨c, hc, u.source, found, u, hu, rfl, rfl⟩,
      rfl, rfl, rfl⟩

private theorem Mergeable.className_mem (mergeable : A.Mergeable classes) {name : StateName}
    (mem : name ∈ A.states.keys) :
    className classes name ∈ (A.mergeClasses classes).states.keys := by
  obtain ⟨c, hc, member⟩ := mergeable.partition.cover name mem
  rw [mergeable.entries_mergeClasses.2, mergeable.partition.className_eq hc member]
  exact List.mem_map_of_mem hc

theorem Mergeable.wellFormed_mergeClasses (mergeable : A.Mergeable classes) (fits : A.WellFormed) :
    (A.mergeClasses classes).WellFormed where
  entry_role := by
    obtain ⟨c, hc, mem⟩ := mergeable.partition.cover A.entry fits.entry_mem
    obtain ⟨least, found⟩ := mergeable.partition.exists_least? hc
    refine ⟨_, mergeable.get?_mergeClasses.mpr ⟨c, hc, least, found, ?_, rfl⟩, decide_eq_true mem⟩
    exact (mergeable.partition.className_eq hc mem).symm
  entry_unique name role found isEntry := by
    obtain ⟨c, hc, _, _, rfl, rfl⟩ := mergeable.get?_mergeClasses.mp found
    exact (mergeable.partition.className_eq hc (of_decide_eq_true isEntry)).symm
  source_mem t mem := by
    obtain ⟨c, hc, _, _, _, _, _, rfl⟩ := mem_transitions_mergeClasses.mp mem
    rw [mergeable.entries_mergeClasses.2]
    exact List.mem_map_of_mem hc
  target_mem t mem := by
    obtain ⟨_, _, _, _, u, hu, _, rfl⟩ := mem_transitions_mergeClasses.mp mem
    exact mergeable.className_mem (fits.target_mem u hu)
  label_mem t mem := by
    obtain ⟨_, _, _, _, u, hu, _, rfl⟩ := mem_transitions_mergeClasses.mp mem
    exact fits.label_mem u hu

theorem Mergeable.deterministic_mergeClasses (mergeable : A.Mergeable classes)
    (det : A.Deterministic) : (A.mergeClasses classes).Deterministic := by
  rw [deterministic_iff] at det ⊢
  constructor
  · intro t mem
    obtain ⟨_, _, _, _, u, hu, _, rfl⟩ := mem_transitions_mergeClasses.mp mem
    exact det.1 u hu
  · intro t ht t' ht' source label
    obtain ⟨c, hc, least, found, u, hu, leaves, rfl⟩ := mem_transitions_mergeClasses.mp ht
    obtain ⟨d, hd, least', found', u', hu', leaves', rfl⟩ := mem_transitions_mergeClasses.mp ht'
    obtain rfl := mergeable.apart c hc d hd source
    obtain rfl := Option.some.inj (found.symm.trans found')
    rw [det.2 u hu u' hu' (leaves.trans leaves'.symm) label]

private theorem Mergeable.exists_representative (mergeable : A.Mergeable classes)
    {name : StateName} (mem : name ∈ A.states.keys) :
    ∃ c ∈ classes, ∃ least, c.least? = some least ∧ className classes name = compositeName c ∧
      A.Alike name least := by
  obtain ⟨c, hc, member⟩ := mergeable.partition.cover name mem
  obtain ⟨least, found⟩ := mergeable.partition.exists_least? hc
  exact ⟨c, hc, least, found, mergeable.partition.className_eq hc member,
    mergeable.alike name least ⟨c, hc, member, SortedSet.least?_mem found⟩⟩

theorem Mergeable.acceptsFrom_mergeClasses (mergeable : A.Mergeable classes) (fits : A.WellFormed)
    (det : A.Deterministic) {name : StateName} (mem : name ∈ A.states.keys) {word : Word} :
    (A.mergeClasses classes).AcceptsFrom (className classes name) word ↔
      A.AcceptsFrom name word := by
  have merged := mergeable.deterministic_mergeClasses det
  induction word generalizing name with
  | nil =>
    obtain ⟨c, hc, least, found, named, alike⟩ := mergeable.exists_representative mem
    rw [alike, named, merged.acceptsFrom_nil, det.acceptsFrom_nil,
      mergeable.isExit_mergeClasses hc found]
  | cons symbol word ih =>
    obtain ⟨c, hc, least, found, named, alike⟩ := mergeable.exists_representative mem
    rw [alike, named, merged.acceptsFrom_cons, det.acceptsFrom_cons]
    constructor
    · rintro ⟨_, move, accepted⟩
      obtain ⟨target, step, rfl⟩ := (mergeable.moves_mergeClasses hc found).mp move
      exact ⟨target, step, (ih (fits.moves_mem step).2).mp accepted⟩
    · rintro ⟨target, step, accepted⟩
      exact ⟨_, (mergeable.moves_mergeClasses hc found).mpr ⟨target, step, rfl⟩,
        (ih (fits.moves_mem step).2).mpr accepted⟩

end Merge

section Smallest

theorem minimize_eq_ok_iff {M : Automaton} :
    A.minimize = .ok M ↔ A.Deterministic ∧ M = A.trim.mergeClasses A.trim.stableClasses :=
  requireDeterministic_return_eq_ok_iff

theorem Mergeable.accepts_trim_mergeClasses (mergeable : A.trim.Mergeable A.trim.stableClasses)
    (fits : A.WellFormed) (det : A.Deterministic) (word : Word) :
    (A.trim.mergeClasses A.trim.stableClasses).accepts word = A.accepts word := by
  have fits_trim := wellFormed_trim fits
  have det_trim := deterministic_trim det
  have det_merged := mergeable.deterministic_mergeClasses det_trim
  rw [← accepts_trim fits det, Bool.eq_iff_iff, det_merged.accepts_iff, det_trim.accepts_iff]
  exact mergeable.acceptsFrom_mergeClasses fits_trim det_trim fits_trim.entry_mem

theorem mergeable_stableClasses (fits : A.WellFormed) (det : A.Deterministic)
    (free : ∀ name ∈ A.stateNames, CommaFree name) : A.Mergeable A.stableClasses where
  partition := (refined_stableClasses A).1
  alike _ _ := alike_of_sameClass fits det
  apart c hc d hd same := by
    have partition := (refined_stableClasses A).1
    obtain ⟨_, mem_c⟩ := partition.inhabited c hc
    obtain ⟨_, mem_d⟩ := partition.inhabited d hd
    exact compositeName_inj mem_c mem_d (fun name mem => free name (partition.inside c hc name mem))
      (fun name mem => free name (partition.inside d hd name mem)) same

def StandsFor (A B : Automaton) (c : SortedSet StateName) (state : StateName) : Prop :=
  ∃ name ∈ c, ∀ word, B.AcceptsFrom state word ↔ A.AcceptsFrom name word

/-- Every state that is left after trimming has its counterpart in each automaton for the same
words: the state that the other automaton reaches by the same word. -/
private theorem exists_counterpart (fits : A.WellFormed) (det : A.Deterministic) {B : Automaton}
    (fits_other : B.WellFormed) (det_other : B.Deterministic)
    (same : ∀ word, B.AcceptsFrom B.entry word ↔ A.trim.AcceptsFrom A.trim.entry word)
    {name : StateName} (mem : name ∈ A.trim.states.keys) :
    ∃ state ∈ B.states.keys, ∀ word, B.AcceptsFrom state word ↔ A.trim.AcceptsFrom name word := by
  by_cases here : name = A.trim.entry
  · exact ⟨B.entry, fits_other.entry_mem, fun word => here ▸ same word⟩
  · obtain ⟨u, way⟩ := exists_path_trim fits mem
    have entries : A.trim.Matches B A.trim.entry B.entry := fun word => (same word).symm
    obtain ⟨state, way', alike⟩ := entries.exists_path (deterministic_trim det) det_other way
      (live_of_mem_trim fits mem here)
    exact ⟨state, fits_other.path_mem way' fits_other.entry_mem, alike.symm⟩

theorem sameClass_trim_of_alike (fits : A.WellFormed) (det : A.Deterministic) {p q : StateName}
    (hp : p ∈ A.trim.states.keys) (hq : q ∈ A.trim.states.keys) (alike : A.trim.Alike p q) :
    SameClass A.trim.stableClasses p q := by
  rcases live_or_single_trim fits with live | single
  · exact sameClass_of_alike (wellFormed_trim fits) (deterministic_trim det) live hp hq alike
  · obtain rfl := (single p hp).trans (single q hq).symm
    obtain ⟨c, hc, mem⟩ := (refined_stableClasses A.trim).1.cover p hp
    exact ⟨c, hc, mem, mem⟩

private theorem length_stableClasses_le (fits : A.WellFormed) (det : A.Deterministic)
    {B : Automaton} (fits_other : B.WellFormed) (det_other : B.Deterministic)
    (same : ∀ word, B.AcceptsFrom B.entry word ↔ A.trim.AcceptsFrom A.trim.entry word) :
    A.trim.stableClasses.length ≤ B.states.size := by
  have partition := (refined_stableClasses A.trim).1
  have count : A.trim.stableClasses.length ≤ B.states.keys.length := by
    apply length_le_of_represented (A.trim.StandsFor B) partition.nodup
    · intro c hc
      obtain ⟨name, mem⟩ := partition.inhabited c hc
      obtain ⟨state, states, alike⟩ := exists_counterpart fits det fits_other det_other same
        (partition.inside c hc name mem)
      exact ⟨state, states, name, mem, alike⟩
    · rintro c hc d hd state ⟨p, mem_p, alike_p⟩ ⟨q, mem_q, alike_q⟩
      have alike : A.trim.Alike p q := fun word => (alike_p word).symm.trans (alike_q word)
      obtain ⟨e, he, mem_p', mem_q'⟩ := sameClass_trim_of_alike fits det
        (partition.inside c hc p mem_p) (partition.inside d hd q mem_q) alike
      exact (partition.eq_of_mem hc he mem_p mem_p').trans (partition.eq_of_mem he hd mem_q' mem_q)
  rwa [OrderedTable.keys, List.length_map] at count

theorem Mergeable.size_trim_mergeClasses_le (mergeable : A.trim.Mergeable A.trim.stableClasses)
    (fits : A.WellFormed) (det : A.Deterministic) {B : Automaton} (fits_other : B.WellFormed)
    (det_other : B.Deterministic) (same : ∀ word, B.accepts word = A.accepts word) :
    (A.trim.mergeClasses A.trim.stableClasses).states.size ≤ B.states.size := by
  rw [mergeable.size_mergeClasses]
  apply length_stableClasses_le fits det fits_other det_other
  intro word
  rw [← det_other.accepts_iff, ← (deterministic_trim det).accepts_iff, accepts_trim fits det, same]

/-- Minimization of a deterministic automaton whose state names contain no comma gives a
deterministic automaton for the same words, and no deterministic automaton for them is smaller. -/
theorem minimize_exact {states : List State} {alphabet : Alphabet} {transitions : List Transition}
    (built : ofParts states alphabet transitions = .ok A) (det : A.Deterministic)
    (free : ∀ name ∈ A.stateNames, CommaFree name) :
    ∃ M, A.minimize = .ok M ∧ M.WellFormed ∧ M.Deterministic ∧
      (∀ word, M.accepts word = A.accepts word) ∧
      ∀ B : Automaton, B.WellFormed → B.Deterministic →
        (∀ word, B.accepts word = A.accepts word) → M.states.size ≤ B.states.size := by
  have fits := wellFormed_of_ofParts built
  have fits_trim := wellFormed_trim fits
  have det_trim := deterministic_trim det
  have mergeable := mergeable_stableClasses fits_trim det_trim
    fun name mem => free name (mem_keys_of_trim mem).2
  exact ⟨_, minimize_eq_ok_iff.mpr ⟨det, rfl⟩, mergeable.wellFormed_mergeClasses fits_trim,
    mergeable.deterministic_mergeClasses det_trim, mergeable.accepts_trim_mergeClasses fits det,
    fun _ fits_other det_other same =>
      mergeable.size_trim_mergeClasses_le fits det fits_other det_other same⟩

theorem minimize_exact_four_states :
    let built := ofParts [⟨"p", ⟨true, false⟩⟩, ⟨"q", ⟨false, true⟩⟩, ⟨"r", ⟨false, true⟩⟩,
        ⟨"s", ⟨false, false⟩⟩] (OrderedSet.ofList ["a", "b"])
      [.plain "p" "a" "q", .plain "p" "b" "r", .plain "q" "a" "r", .plain "r" "a" "q",
        .plain "q" "b" "s"]
    ∃ A, built = .ok A ∧ A.Deterministic ∧ (∀ name ∈ A.stateNames, CommaFree name) ∧
      ∃ M, A.minimize = .ok M ∧ M.states.keys = ["q,r", "p"] ∧ M.accepts ["b", "a"] = true := by
  intro built
  have accepted : built = .ok _ := rfl
  refine ⟨_, accepted, by decide, by decide, ?_⟩
  obtain ⟨M, result, _, _, same, _⟩ := minimize_exact accepted (by decide) (by decide)
  refine ⟨M, result, ?_, ?_⟩
  · obtain rfl := Except.ok.inj result
    decide
  · rw [same]
    decide

end Smallest

end LanguageTheory.Automaton

import LanguageTheory.Proofs.Automaton.Completion
import LanguageTheory.Proofs.Automaton.Composition
import LanguageTheory.Proofs.Automaton.Product
import LanguageTheory.Proofs.Automaton.Union

/-!
What the operations keep of the guarantees of a built automaton. After any of them the parts are
linked and no state but the entry is marked as entry. The mark itself can be lost in one way:
minimization gives two classes one name, and the role of a class without the entry replaces that of
the class with the entry (`not_forall_obtained_wellFormed`, `Linked.wellFormed_minimize_iff`).
Without that, every automaton that operations make is well formed (`Obtained.invariants`).
-/

set_option autoImplicit false
set_option relaxedAutoImplicit false

namespace LanguageTheory.Automaton

variable {A B C M : Automaton} {name : StateName} {certain : Prop}

section Marks

def Marked (A : Automaton) (name : StateName) : Prop :=
  ∃ role, A.states.get? name = some role ∧ role.isEntry = true

/-- The parts fit together, and at most the entry is marked as entry; it is marked under a
condition. -/
structure WellFormedIf (A : Automaton) (certain : Prop) : Prop where
  linked : A.Linked
  only_entry : ∀ name, A.Marked name → name = A.entry
  entry_marked : certain → A.Marked A.entry

private theorem WellFormed.wellFormedIf (fits : A.WellFormed) (certain : Prop) :
    A.WellFormedIf certain where
  linked := fits.linked
  only_entry := by
    rintro name ⟨role, found, isEntry⟩
    exact fits.entry_unique name role found isEntry
  entry_marked _ := fits.entry_role

private theorem WellFormedIf.wellFormed (fits : A.WellFormedIf certain) (holds : certain) :
    A.WellFormed where
  entry_role := fits.entry_marked holds
  entry_unique name role found isEntry := fits.only_entry name ⟨role, found, isEntry⟩
  source_mem := fits.linked.source_mem
  target_mem := fits.linked.target_mem
  label_mem := fits.linked.label_mem

private theorem marked_restrict {keep : StateName → Bool} :
    (A.restrict keep).Marked name ↔ A.Marked name ∧ keep name = true := by
  simp only [Marked, get?_restrict, and_right_comm, exists_and_right]

private theorem marked_complete : A.complete.Marked name ↔ A.Marked name := by
  rcases A.complete_cases with ⟨_, same⟩ | has
  · rw [same]
  · rw [Marked, Marked, has.states]
    simp only [OrderedTable.get?_insert]
    by_cases sink : name = A.sinkName
    · subst sink
      have absent : A.states.get? A.sinkName = none := OrderedTable.get?_eq_none_iff.mpr has.new
      simp [absent]
    · simp only [if_neg sink]

private theorem marked_flipExits : A.flipExits.Marked name ↔ A.Marked name := by
  rw [Marked, Marked, flipExits, OrderedTable.get?_mapValues]
  simp

end Marks

section Operations

private theorem WellFormedIf.restrict (fits : A.WellFormedIf certain) {keep : StateName → Bool}
    (kept : keep A.entry = true) : (A.restrict keep).WellFormedIf certain where
  linked := linked_restrict fits.linked kept
  only_entry name marked := fits.only_entry name (marked_restrict.mp marked).1
  entry_marked holds := marked_restrict.mpr ⟨fits.entry_marked holds, kept⟩

private theorem linked_removeUnusedSymbols (linked : A.Linked) : A.removeUnusedSymbols.Linked where
  entry_mem := linked.entry_mem
  source_mem := linked.source_mem
  target_mem := linked.target_mem
  label_mem t mem := by
    refine (linked.label_mem t mem).imp_right fun known => OrderedSet.mem_filter.mpr ⟨known, ?_⟩
    exact List.any_eq_true.mpr ⟨t, mem, decide_eq_true rfl⟩

private theorem WellFormedIf.complete (fits : A.WellFormedIf certain) :
    A.complete.WellFormedIf certain := by
  refine ⟨linked_complete fits.linked, fun name marked => ?_, fun holds => ?_⟩
  · rw [entry_complete]
    exact fits.only_entry name (marked_complete.mp marked)
  · rw [entry_complete]
    exact marked_complete.mpr (fits.entry_marked holds)

private theorem WellFormedIf.flipExits (fits : A.WellFormedIf certain) :
    A.flipExits.WellFormedIf certain where
  linked := linked_flipExits fits.linked
  only_entry name marked := fits.only_entry name (marked_flipExits.mp marked)
  entry_marked holds := marked_flipExits.mpr (fits.entry_marked holds)

end Operations

section Minimization

variable {classes : List (SortedSet StateName)}

def classEntry (A : Automaton) (c : SortedSet StateName) : StateName × StateRole :=
  (compositeName c, ⟨decide (A.entry ∈ c), A.isExit (c.least?.getD A.entry)⟩)

private theorem Partition.states_mergeClasses (partition : A.Partition classes) :
    (A.mergeClasses classes).states = OrderedTable.ofList (classes.map A.classEntry) := by
  rw [mergeClasses, ← List.filterMap_eq_map']
  refine congrArg OrderedTable.ofList (List.filterMap_congr fun c hc => ?_)
  obtain ⟨least, found⟩ := partition.exists_least? hc
  rw [found, Option.map_some, classEntry, found, Option.getD_some]

private theorem Partition.marked_mergeClasses_iff (partition : A.Partition classes) :
    (A.mergeClasses classes).Marked name ↔ ∃ before c after, classes = before ++ c :: after ∧
      A.entry ∈ c ∧ compositeName c = name ∧ ∀ d ∈ after, compositeName d ≠ name := by
  rw [Marked, partition.states_mergeClasses]
  simp only [OrderedTable.get?_ofList_eq_some_iff]
  constructor
  · rintro ⟨role, ⟨front, back, shape, last⟩, isEntry⟩
    obtain ⟨before, rest, rfl, rfl, split⟩ := List.map_eq_append_iff.mp shape
    obtain ⟨c, after, rfl, same, rfl⟩ := List.map_eq_cons_iff.mp split
    obtain ⟨rfl, rfl⟩ := Prod.mk.inj same
    refine ⟨before, c, after, rfl, of_decide_eq_true isEntry, rfl, fun d mem equal => last ?_⟩
    exact List.mem_map.mpr ⟨_, List.mem_map_of_mem mem, equal⟩
  · rintro ⟨before, c, after, rfl, inside, rfl, last⟩
    refine ⟨(A.classEntry c).2,
      ⟨before.map A.classEntry, after.map A.classEntry, ?_, fun mem => ?_⟩, decide_eq_true inside⟩
    · rw [List.map_append, List.map_cons]
      rfl
    · obtain ⟨_, entry, equal⟩ := List.mem_map.mp mem
      obtain ⟨d, later, rfl⟩ := List.mem_map.mp entry
      exact last d later equal

/-- No class after the one of the entry has its name. -/
def KeepsEntry (A : Automaton) : Prop :=
  ∃ before c after, A.trim.stableClasses = before ++ c :: after ∧ A.entry ∈ c ∧
    ∀ d ∈ after, compositeName d ≠ compositeName c

private theorem ClassesApart.keepsEntry (apart : A.ClassesApart) (linked : A.Linked) :
    A.KeepsEntry := by
  have partition := (refined_stableClasses A.trim).1
  have entry : A.entry ∈ A.trim.states.keys := (linked_trim linked).entry_mem
  obtain ⟨c, hc, inside⟩ := partition.cover A.entry entry
  obtain ⟨before, after, shape⟩ := List.append_of_mem hc
  refine ⟨before, c, after, shape, inside, fun d mem same => ?_⟩
  have distinct := partition.nodup
  rw [shape, List.nodup_append] at distinct
  have later : d ∈ A.trim.stableClasses :=
    shape ▸ List.mem_append_right before (List.mem_cons_of_mem c mem)
  exact (List.nodup_cons.mp distinct.2.1).1 (apart d later c hc same ▸ mem)

private theorem wellFormedIf_minimize (linked : A.Linked) (result : A.minimize = .ok M)
    (kept : certain → A.KeepsEntry) : M.WellFormedIf certain := by
  have partition := (refined_stableClasses A.trim).1
  refine ⟨linked_minimize linked result, ?_, fun holds => ?_⟩
  · obtain ⟨_, rfl⟩ := minimize_eq_ok_iff.mp result
    intro name marked
    obtain ⟨before, c, after, shape, inside, rfl, _⟩ := partition.marked_mergeClasses_iff.mp marked
    have hc : c ∈ A.trim.stableClasses := shape ▸ List.mem_append_right before List.mem_cons_self
    exact (partition.className_eq hc inside).symm
  · obtain ⟨_, rfl⟩ := minimize_eq_ok_iff.mp result
    obtain ⟨before, c, after, shape, inside, last⟩ := kept holds
    have hc : c ∈ A.trim.stableClasses := shape ▸ List.mem_append_right before List.mem_cons_self
    have entry : compositeName c = (A.trim.mergeClasses A.trim.stableClasses).entry :=
      (partition.className_eq hc inside).symm
    exact partition.marked_mergeClasses_iff.mpr
      ⟨before, c, after, shape, inside, entry, fun d mem => entry ▸ last d mem⟩

theorem Linked.wellFormed_minimize_iff (linked : A.Linked) (result : A.minimize = .ok M) :
    M.WellFormed ↔ A.KeepsEntry := by
  constructor
  · intro fits
    obtain ⟨_, rfl⟩ := minimize_eq_ok_iff.mp result
    obtain ⟨before, c, after, shape, inside, entry, last⟩ :=
      (refined_stableClasses A.trim).1.marked_mergeClasses_iff.mp fits.entry_role
    exact ⟨before, c, after, shape, inside, fun d mem => entry ▸ last d mem⟩
  · exact fun kept => (wellFormedIf_minimize linked result fun _ => kept).wellFormed trivial

private theorem Linked.deterministic_minimize (linked : A.Linked) (result : A.minimize = .ok M)
    (apart : A.ClassesApart) : M.Deterministic := by
  have det : A.withEntryMark.Deterministic := (minimize_eq_ok_iff.mp result).1
  have reduces := ((classesApart_withEntryMark A).mpr apart).reducesTo
    (wellFormed_withEntryMark linked) det
  have same := reduces.result
  rw [minimize_withEntryMark, result] at same
  rw [Except.ok.inj same]
  exact reduces.det

end Minimization

section Sequences

/-- Made from built automata by operations that succeed, one after the other, where only automata of
some kind are minimized. -/
inductive Obtained (mayMinimize : Automaton → Prop) : Automaton → Prop
  | given {states : List State} {alphabet : Alphabet} {transitions : List Transition}
      {A : Automaton}
      (built : ofParts states alphabet transitions = .ok A) : Obtained mayMinimize A
  | determinize {A : Automaton} (made : Obtained mayMinimize A) : Obtained mayMinimize A.determinize
  | minimize {A M : Automaton} (made : Obtained mayMinimize A) (may : mayMinimize A)
      (result : A.minimize = .ok M) : Obtained mayMinimize M
  | complete {A : Automaton} (made : Obtained mayMinimize A) : Obtained mayMinimize A.complete
  | complement {A C : Automaton} (made : Obtained mayMinimize A) (result : A.complement = .ok C) :
      Obtained mayMinimize C
  | union {A B C : Automaton} {rename : Bool} {stem : String} (left : Obtained mayMinimize A)
      (right : Obtained mayMinimize B) (result : A.union B rename stem = .ok C) :
        Obtained mayMinimize C
  | intersect {A B C : Automaton} (left : Obtained mayMinimize A) (right : Obtained mayMinimize B)
      (result : A.intersect B = .ok C) : Obtained mayMinimize C
  | removeUnreachableStates {A : Automaton} (made : Obtained mayMinimize A) :
      Obtained mayMinimize A.removeUnreachableStates
  | removeDeadStates {A : Automaton} (made : Obtained mayMinimize A) :
      Obtained mayMinimize A.removeDeadStates
  | removeUnusedSymbols {A : Automaton} (made : Obtained mayMinimize A) :
      Obtained mayMinimize A.removeUnusedSymbols

variable {mayMinimize : Automaton → Prop}

private theorem Obtained.wellFormedIf (obtained : Obtained mayMinimize A) :
    A.WellFormedIf (∀ B, mayMinimize B → B.KeepsEntry) := by
  induction obtained with
  | given built => exact (wellFormed_of_ofParts built).wellFormedIf _
  | determinize _ fits => exact fits.linked.wellFormed_determinize.wellFormedIf _
  | minimize _ may result fits =>
    exact wellFormedIf_minimize fits.linked result fun kept => kept _ may
  | complete _ fits => exact fits.complete
  | complement _ result fits =>
    obtain ⟨_, rfl⟩ := complement_eq_ok_iff.mp result
    exact fits.complete.flipExits
  | union _ _ result left right =>
    exact (sideBySide_union left.linked right.linked result).1.wellFormedIf _
  | intersect _ _ result left right =>
    obtain ⟨_, _, rfl⟩ := intersect_eq_ok_iff.mp result
    exact (left.linked.wellFormed_product right.linked).wellFormedIf _
  | @removeUnreachableStates A _ fits => exact fits.restrict A.entry_reachable
  | removeDeadStates _ fits => exact fits.restrict (decide_eq_true (Or.inr rfl))
  | removeUnusedSymbols _ fits =>
    exact ⟨linked_removeUnusedSymbols fits.linked, fits.only_entry, fits.entry_marked⟩

/-- The class of `a` and `b` and the class of `a,b` become one state, which has the role of the
latter, and which moves on `x` as both do. -/
theorem not_forall_obtained_wellFormed :
    ¬ ∀ A, Obtained (fun _ => True) A →
      A.WellFormed ∧ ∀ M, A.minimize = .ok M → M.Deterministic := by
  intro kept
  have built : ofParts [⟨"a", ⟨true, true⟩⟩, ⟨"b", ⟨false, true⟩⟩, ⟨"a,b", ⟨false, false⟩⟩]
      (OrderedSet.ofList ["x", "y"])
      [.plain "a" "x" "b", .plain "a" "y" "a,b", .plain "b" "x" "a", .plain "b" "y" "a,b",
        .plain "a,b" "x" "a"] = .ok _ := rfl
  have obtained : Obtained (fun _ => True) _ := .minimize (.given built) trivial rfl
  obtain ⟨role, found, isEntry⟩ := (kept _ obtained).1.entry_role
  have lost : some role = some ⟨false, false⟩ := found.symm.trans (by decide +kernel)
  rw [Option.some.inj lost] at isEntry
  cases isEntry

/-- Whatever operations made an automaton, from automata with any state names: each state has the
name it is stored under (by construction, since the table holds the roles of the states and `state?`
puts the name back), the parts fit together, at most the entry is marked as entry, and the exits are
the states marked as such. Determinization, complement and intersection give deterministic automata.
If the entry kept its mark whenever an automaton was minimized, then the automaton is well formed;
and minimization itself gives a deterministic automaton if classes of one name are one class. -/
theorem Obtained.invariants (obtained : Obtained mayMinimize A) :
    (∀ name s, A.state? name = some s → s.name = name) ∧ A.Linked ∧
      (∀ name, A.Marked name → name = A.entry) ∧
      (∀ name, name ∈ A.exits ↔ ∃ s, A.state? name = some s ∧ s.role.isExit = true) ∧
      A.determinize.Deterministic ∧ (∀ C, A.complement = .ok C → C.Deterministic) ∧
      (∀ B C, A.intersect B = .ok C → C.Deterministic) ∧
      ((∀ B, mayMinimize B → B.KeepsEntry) → A.WellFormed) ∧
      ∀ M, A.minimize = .ok M → (M.WellFormed ↔ A.KeepsEntry) ∧
      (A.ClassesApart → M.Deterministic) := by
  have fits := obtained.wellFormedIf
  refine ⟨fun name s found => ?_, fits.linked, fits.only_entry, fun name => ?_,
    deterministic_determinize A, fun C result => ?_, fun B C result => ?_, fits.wellFormed,
    fun M result => ⟨fits.linked.wellFormed_minimize_iff result,
      fits.linked.deterministic_minimize result⟩⟩
  · obtain ⟨role, _, rfl⟩ := Option.map_eq_some_iff.mp found
    rfl
  · rw [exits, OrderedTable.mem_keys_iff]
    simp [OrderedTable.get?_filter_eq_some_iff, state?]
  · obtain ⟨det, rfl⟩ := complement_eq_ok_iff.mp result
    exact fits.linked.deterministic_complete det
  · obtain ⟨det, det', rfl⟩ := intersect_eq_ok_iff.mp result
    exact deterministic_product det det'

/-- The set of `p` and `q` and the class of this set are both named `p,q`; no other class is. -/
theorem Obtained.invariants_complement_of_minimal :
    ∃ A M C, ofParts [⟨"s", ⟨true, false⟩⟩, ⟨"p", ⟨false, true⟩⟩, ⟨"q", ⟨false, false⟩⟩]
        (OrderedSet.ofList ["x", "y"]) [.plain "s" "x" "p", .plain "s" "x" "q",
          .plain "q" "y" "p"] = .ok A ∧
      A.determinize.KeepsEntry ∧ A.determinize.minimize = .ok M ∧ M.complement = .ok C ∧
      Obtained KeepsEntry C.removeDeadStates ∧ C.removeDeadStates.WellFormed ∧
      ∀ N, C.minimize = .ok N → (N.WellFormed ↔ C.KeepsEntry) := by
  obtain ⟨A, M, C, built, apart, minimized, complemented⟩ :
      ∃ A M C, ofParts [⟨"s", ⟨true, false⟩⟩, ⟨"p", ⟨false, true⟩⟩, ⟨"q", ⟨false, false⟩⟩]
          (OrderedSet.ofList ["x", "y"])
          [.plain "s" "x" "p", .plain "s" "x" "q", .plain "q" "y" "p"] = .ok A ∧
        A.determinize.ClassesApart ∧ A.determinize.minimize = .ok M ∧ M.complement = .ok C :=
    ⟨_, _, _, rfl, by decide +kernel, rfl, rfl⟩
  have subsets : Obtained KeepsEntry A.determinize := .determinize (.given built)
  have kept : A.determinize.KeepsEntry := apart.keepsEntry (Obtained.invariants subsets).2.1
  have obtained : Obtained KeepsEntry C :=
    .complement (.minimize subsets kept minimized) complemented
  obtain ⟨_, _, _, _, _, _, _, _, minimal⟩ := Obtained.invariants obtained
  obtain ⟨_, _, _, _, _, _, _, well, _⟩ := Obtained.invariants obtained.removeDeadStates
  exact ⟨A, M, C, built, kept, minimized, complemented, obtained.removeDeadStates,
    well fun _ holds => holds, fun N result => (minimal N result).1⟩

end Sequences

end LanguageTheory.Automaton

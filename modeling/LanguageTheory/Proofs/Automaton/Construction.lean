import Mathlib.Logic.Basic
import LanguageTheory.Automaton.Basic

/-!
What `Automaton.ofParts` checks. An automaton that it returns is well formed; parts with distinct
names, one entry and transitions that fit are accepted, and the automaton then consists of them
(`ofParts_eq_ok`).
-/

set_option autoImplicit false
set_option relaxedAutoImplicit false

namespace LanguageTheory.Automaton

/-- The entry that has been remembered is the only state declared as entry. -/
def EntryRecorded (states : OrderedTable StateName StateRole) (entry : Option StateName) : Prop :=
  (∀ name, entry = some name → ∃ role, states.get? name = some role ∧ role.isEntry = true) ∧
    ∀ name role, states.get? name = some role → role.isEntry = true → entry = some name

private theorem entryRecorded_insert {states : OrderedTable StateName StateRole}
    {entry : Option StateName} {s : State} (recorded : EntryRecorded states entry)
    (new : s.name ∉ states.keys) (single : s.role.isEntry = true → entry = none) :
    EntryRecorded (states.insert s.name s.role)
      (if s.role.isEntry then some s.name else entry) := by
  obtain ⟨stored, unique⟩ := recorded
  refine ⟨fun name h => ?_, fun name role found isEntry => ?_⟩
  · by_cases isEntry : s.role.isEntry = true
    · rw [if_pos isEntry] at h
      obtain rfl := Option.some.inj h
      exact ⟨s.role, by simp [OrderedTable.get?_insert], isEntry⟩
    · rw [if_neg isEntry] at h
      obtain ⟨role, found, isEntry⟩ := stored name h
      have other : name ≠ s.name := by
        rintro rfl
        exact new (OrderedTable.mem_keys_of_get? found)
      exact ⟨role, by rw [OrderedTable.get?_insert, if_neg other, found], isEntry⟩
  · rw [OrderedTable.get?_insert] at found
    split at found
    · rename_i same
      obtain rfl := Option.some.inj found
      rw [if_pos isEntry, same]
    · have known := unique name role found isEntry
      by_cases now : s.role.isEntry = true
      · rw [single now] at known
        cases known
      · rw [if_neg now, known]

private theorem entryRecorded_declareStates {states table : OrderedTable StateName StateRole}
    {entry found : Option StateName} {rest : List State}
    (recorded : EntryRecorded states entry)
    (declared : declareStates states entry rest = .ok (table, found)) :
    EntryRecorded table found := by
  induction rest generalizing states entry with
  | nil =>
    obtain ⟨rfl, rfl⟩ := Prod.mk.inj (Except.ok.inj declared)
    exact recorded
  | cons s rest ih =>
    have later (single : s.role.isEntry = true → entry = none)
        (h : (if s.name ∈ states.keys then Except.error (Error.duplicateState s.name)
          else declareStates (states.insert s.name s.role)
            (if s.role.isEntry then some s.name else entry) rest) = .ok (table, found)) :
        EntryRecorded table found := by
      split at h
      · cases h
      · rename_i new
        exact ih (entryRecorded_insert recorded new single) h
    unfold declareStates at declared
    split at declared
    · cases declared
    · rename_i separate
      apply later _ declared
      intro isEntry
      exact Option.eq_none_iff_forall_ne_some.mpr fun first => separate first isEntry

private theorem transitionFault?_eq_none {states : OrderedTable StateName StateRole}
    {alphabet : Alphabet} {t : Transition} (fine : transitionFault? states alphabet t = none) :
    t.source ∈ states.keys ∧ t.target ∈ states.keys ∧
      (t.label = Symbol.epsilon ∨ t.label ∈ alphabet) := by
  unfold transitionFault? at fine
  split at fine
  · cases fine
  · split at fine
    · cases fine
    · split at fine
      · cases fine
      · rename_i source target label
        refine ⟨not_not.mp source, not_not.mp target, ?_⟩
        by_cases silent : t.label = Symbol.epsilon
        · exact Or.inl silent
        · exact Or.inr (by_contra fun foreign => label ⟨silent, foreign⟩)

private theorem transitionFault?_of_fits {states : OrderedTable StateName StateRole}
    {alphabet : Alphabet} {t : Transition} (source : t.source ∈ states.keys)
    (target : t.target ∈ states.keys) (label : t.label = Symbol.epsilon ∨ t.label ∈ alphabet) :
    transitionFault? states alphabet t = none := by
  have known : ¬ (t.label ≠ Symbol.epsilon ∧ t.label ∉ alphabet) :=
    fun foreign => label.elim foreign.1 foreign.2
  rw [transitionFault?, if_neg (not_not.mpr source), if_neg (not_not.mpr target), if_neg known]

private theorem declareStates_eq_ok {states : OrderedTable StateName StateRole}
    {entry : Option StateName} {rest : List State} {first : StateName}
    (distinct : (states.keys ++ rest.map State.name).Nodup)
    (single : ∀ s ∈ rest, s.role.isEntry = true → entry = none ∧ s.name = first) :
    declareStates states entry rest = .ok (states.insertMany (rest.map fun s => (s.name, s.role)),
      if ∃ s ∈ rest, s.role.isEntry = true then some first else entry) := by
  induction rest generalizing states entry with
  | nil => simp [declareStates, OrderedTable.insertMany]
  | cons s rest ih =>
    rw [List.map_cons, List.nodup_append] at distinct
    obtain ⟨keys, names, apart⟩ := distinct
    obtain ⟨unrepeated, names⟩ := List.nodup_cons.mp names
    have new : s.name ∉ states.keys := fun old => apart _ old _ List.mem_cons_self rfl
    have distinct : ((states.insert s.name s.role).keys ++ rest.map State.name).Nodup := by
      refine List.nodup_append.mpr ⟨(states.insert s.name s.role).nodup, names, ?_⟩
      rintro name mem _ later rfl
      rcases OrderedTable.mem_keys_insert.mp mem with old | rfl
      · exact apart name old name (List.mem_cons_of_mem _ later) rfl
      · exact unrepeated later
    obtain ⟨here, later⟩ := List.forall_mem_cons.mp single
    rw [declareStates]
    rotate_left
    · intro _ isEntry stored
      rw [(here isEntry).1] at stored
      cases stored
    by_cases isEntry : s.role.isEntry = true
    · obtain ⟨rfl, rfl⟩ := here isEntry
      have last : ∀ t ∈ rest, ¬ t.role.isEntry = true := fun t mem again =>
        unrepeated ((later t mem again).2 ▸ List.mem_map_of_mem mem)
      have rest_ok : declareStates (states.insert s.name s.role) (some s.name) rest = _ :=
        ih distinct fun t mem again => absurd again (last t mem)
      have none_left : ¬ ∃ t ∈ rest, t.role.isEntry = true := by
        rintro ⟨t, mem, again⟩
        exact last t mem again
      rw [if_neg none_left] at rest_ok
      have found : ∃ t ∈ s :: rest, t.role.isEntry = true := ⟨s, List.mem_cons_self, isEntry⟩
      simp only [isEntry, if_neg new, if_true, rest_ok, if_pos found]
      rfl
    · have rest_ok : declareStates (states.insert s.name s.role) entry rest = _ := ih distinct later
      have plain : s.role.isEntry = false := Bool.eq_false_iff.mpr isEntry
      simp only [plain, if_neg new, Bool.false_eq_true, if_false, rest_ok, List.mem_cons,
        exists_eq_or_imp, false_or]
      rfl

theorem ofParts_eq_ok {states : List State} {alphabet : Alphabet} {transitions : List Transition}
    {s : State} (distinct : (states.map State.name).Nodup) (mem : s ∈ states)
    (isEntry : s.role.isEntry = true)
    (single : ∀ t ∈ states, t.role.isEntry = true → t.name = s.name)
    (fine : ∀ t ∈ transitions, t.source ∈ states.map State.name ∧ t.target ∈ states.map State.name ∧
      (t.label = Symbol.epsilon ∨ t.label ∈ alphabet)) :
    ofParts states alphabet transitions = .ok
      ⟨OrderedTable.ofList (states.map fun s => (s.name, s.role)), alphabet,
        OrderedSet.ofList transitions, s.name⟩ := by
  have declared : declareStates .empty none states =
      .ok (OrderedTable.ofList (states.map fun s => (s.name, s.role)), some s.name) := by
    have all : declareStates .empty none states = _ :=
      declareStates_eq_ok distinct fun t member again => ⟨rfl, single t member again⟩
    rw [all, if_pos ⟨s, mem, isEntry⟩]
    rfl
  have known (name : StateName) : name ∈ states.map State.name ↔
      name ∈ (OrderedTable.ofList (states.map fun s => (s.name, s.role))).keys := by
    simp
  have faultless : transitions.findSome? (transitionFault?
      (OrderedTable.ofList (states.map fun s => (s.name, s.role))) alphabet) = none := by
    refine List.findSome?_eq_none_iff.mpr fun t member => ?_
    obtain ⟨source, target, label⟩ := fine t member
    exact transitionFault?_of_fits ((known _).mp source) ((known _).mp target) label
  simp only [ofParts, declared, faultless]

theorem get?_ofStates {states : List State} (distinct : (states.map State.name).Nodup)
    {name : StateName} {role : StateRole} :
    (OrderedTable.ofList (states.map fun s => (s.name, s.role))).get? name = some role ↔
      (⟨name, role⟩ : State) ∈ states := by
  rw [OrderedTable.get?_eq_some_iff, OrderedTable.entries_ofList, List.mem_map]
  · constructor
    · rintro ⟨s, mem, same⟩
      obtain ⟨rfl, rfl⟩ := Prod.mk.inj same
      exact mem
    · exact fun mem => ⟨_, mem, rfl⟩
  · rw [List.map_map]
    exact distinct

theorem isExit_iff {A : Automaton} {name : StateName} :
    A.isExit name = true ↔ ∃ role, A.states.get? name = some role ∧ role.isExit = true := by
  unfold isExit
  cases A.states.get? name with
  | none => simp
  | some role => simp

theorem wellFormed_of_ofParts {states : List State} {alphabet : Alphabet}
    {transitions : List Transition} {A : Automaton}
    (built : ofParts states alphabet transitions = .ok A) : A.WellFormed := by
  unfold ofParts at built
  split at built
  · cases built
  · cases built
  · rename_i table entry declared
    split at built
    · cases built
    · rename_i fine
      obtain rfl := Except.ok.inj built
      have recorded : EntryRecorded table (some entry) := by
        apply entryRecorded_declareStates _ declared
        refine ⟨fun name h => ?_, fun name role h => ?_⟩
        · cases h
        · rw [OrderedTable.get?_empty] at h
          cases h
      have checked (t : Transition) (mem : t ∈ OrderedSet.ofList transitions) :=
        transitionFault?_eq_none
          (List.findSome?_eq_none_iff.mp fine t (OrderedSet.mem_ofList.mp mem))
      exact {
        entry_role := recorded.1 entry rfl
        entry_unique := fun name role found isEntry =>
          (Option.some.inj (recorded.2 name role found isEntry)).symm
        source_mem := fun t mem => (checked t mem).1
        target_mem := fun t mem => (checked t mem).2.1
        label_mem := fun t mem => (checked t mem).2.2 }

end LanguageTheory.Automaton

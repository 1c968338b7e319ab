import Mathlib.Data.List.Nodup
import LanguageTheory.Proofs.Automaton.Construction
import LanguageTheory.Record

/-!
Stored machines. A well-formed automaton is read back from its record just as it was
(`WellFormed.toAutomaton_toRecord`). The record of the automaton that was read is the record itself
but for the alphabet and the transitions, in which repetitions are gone (`toRecord_of_toAutomaton`).
-/

set_option autoImplicit false
set_option relaxedAutoImplicit false

namespace LanguageTheory

variable {A : Automaton} {record : MachineRecord}

namespace Automaton

private theorem entries_declareStates {states table : OrderedTable StateName StateRole}
    {entry found : Option StateName} {rest : List State}
    (declared : declareStates states entry rest = .ok (table, found)) :
    table.entries = states.entries ++ rest.map fun s => (s.name, s.role) := by
  induction rest generalizing states entry with
  | nil =>
    obtain ⟨rfl, _⟩ := Prod.mk.inj (Except.ok.inj declared)
    simp
  | cons s rest ih =>
    have later {entry' : Option StateName}
        (h : (if s.name ∈ states.keys then Except.error (Error.duplicateState s.name)
          else declareStates (states.insert s.name s.role) entry' rest) = .ok (table, found)) :
        table.entries = states.entries ++ (s :: rest).map fun s => (s.name, s.role) := by
      split at h
      · cases h
      · rename_i new
        have grown : (states.insert s.name s.role).entries = states.entries ++ [(s.name, s.role)] :=
          OrderedTable.setEntry_of_not_mem new
        rw [ih h, grown, List.append_assoc, List.singleton_append, List.map_cons]
    unfold declareStates at declared
    split at declared
    · cases declared
    · exact later declared

private theorem parts_of_ofParts {states : List State} {alphabet : Alphabet}
    {transitions : List Transition} (built : ofParts states alphabet transitions = .ok A) :
    A.states.entries = states.map (fun s => (s.name, s.role)) ∧ A.alphabet = alphabet ∧
      A.transitions = OrderedSet.ofList transitions := by
  unfold ofParts at built
  split at built
  · cases built
  · cases built
  · rename_i declared
    split at built
    · cases built
    · obtain rfl := Except.ok.inj built
      exact ⟨entries_declareStates declared, rfl, rfl⟩

end Automaton

namespace MachineRecord

private theorem of_toAutomaton (read : record.toAutomaton = .ok A) :
    record.kind = .finiteState ∧ record.memoryAlphabet = [] ∧
      record.deterministic = decide A.Deterministic ∧
      Automaton.ofParts (record.states.map StateRecord.toState)
        (OrderedSet.ofList record.entryAlphabet)
        (record.transitions.map TransitionRecord.toTransition) = .ok A := by
  unfold toAutomaton at read
  split at read
  · cases read
  · rename_i kind
    split at read
    · cases read
    · rename_i built
      split at read
      · cases read
      · rename_i flag
        split at read
        · cases read
        · rename_i memory
          obtain rfl := Except.ok.inj read
          exact ⟨not_not.mp kind, not_not.mp memory, (not_not.mp flag).symm, built⟩

/-- Nothing is listed twice in the alphabet or among the transitions. -/
structure Canonical (record : MachineRecord) : Prop where
  alphabet : record.entryAlphabet.Nodup
  transitions : record.transitions.Nodup

private theorem map_toRecord_eq_iff {transitions : List Transition}
    {listed : List TransitionRecord} :
    transitions.map Transition.toRecord = listed ↔
      transitions = listed.map TransitionRecord.toTransition := by
  constructor
  · rintro rfl
    simp [Function.comp_def]
  · rintro rfl
    simp [Function.comp_def]

private theorem stored_transitions_eq_iff (listed : List TransitionRecord) :
    (OrderedSet.ofList (listed.map TransitionRecord.toTransition)).toList.map Transition.toRecord =
      listed ↔ listed.Nodup := by
  have injective : Function.Injective TransitionRecord.toTransition :=
    Function.LeftInverse.injective TransitionRecord.toRecord_toTransition
  rw [map_toRecord_eq_iff, OrderedSet.toList_ofList_eq_iff, List.nodup_map_iff injective]

theorem toRecord_of_toAutomaton (read : record.toAutomaton = .ok A) :
    A.toRecord record.id record.name = { record with
      entryAlphabet := (OrderedSet.ofList record.entryAlphabet).toList
      transitions :=
        (OrderedSet.ofList (record.transitions.map TransitionRecord.toTransition)).toList.map
          Transition.toRecord } := by
  obtain ⟨kind, memory, flag, built⟩ := of_toAutomaton read
  obtain ⟨states, alphabet, transitions⟩ := Automaton.parts_of_ofParts built
  have listed : (A.states.entries.map fun e => (State.mk e.1 e.2).toRecord) = record.states := by
    rw [states, List.map_map, List.map_map]
    exact (List.map_congr_left fun s _ => s.toRecord_toState).trans (List.map_id record.states)
  simp only [Automaton.toRecord, listed, alphabet, transitions, ← flag, ← kind, ← memory]

/-- An accepted record is reproduced exactly if it is canonical. -/
theorem toRecord_eq_iff (read : record.toAutomaton = .ok A) :
    A.toRecord record.id record.name = record ↔ record.Canonical := by
  rw [toRecord_of_toAutomaton read]
  constructor
  · intro same
    exact ⟨OrderedSet.toList_ofList_eq_iff.mp (congrArg entryAlphabet same),
      (stored_transitions_eq_iff _).mp (congrArg MachineRecord.transitions same)⟩
  · rintro ⟨alphabet, transitions⟩
    rw [OrderedSet.toList_ofList_eq_iff.mpr alphabet, (stored_transitions_eq_iff _).mpr transitions]

end MachineRecord

namespace Automaton

private theorem WellFormed.ofParts_eq (fits : A.WellFormed) :
    ofParts (A.states.entries.map fun e => ⟨e.1, e.2⟩) A.alphabet A.transitions.toList = .ok A := by
  obtain ⟨role, found, isEntry⟩ := fits.entry_role
  have names : (A.states.entries.map fun e => State.mk e.1 e.2).map State.name = A.states.keys := by
    rw [List.map_map]
    rfl
  have entries : ((A.states.entries.map fun e => State.mk e.1 e.2).map fun s => (s.name, s.role)) =
      A.states.entries := by
    rw [List.map_map]
    exact List.map_id A.states.entries
  have stored {s : State} (mem : s ∈ A.states.entries.map fun e => State.mk e.1 e.2) :
      A.states.get? s.name = some s.role := by
    obtain ⟨e, member, rfl⟩ := List.mem_map.mp mem
    exact OrderedTable.get?_eq_some_iff.mpr member
  have begins : State.mk A.entry role ∈ A.states.entries.map fun e => State.mk e.1 e.2 :=
    List.mem_map.mpr ⟨(A.entry, role), OrderedTable.get?_eq_some_iff.mp found, rfl⟩
  rw [ofParts_eq_ok (names ▸ A.states.nodup) begins isEntry, entries]
  · simp
  · exact fun s mem again => fits.entry_unique s.name s.role (stored mem) again
  · intro t mem
    rw [names]
    exact ⟨fits.source_mem t mem, fits.target_mem t mem, fits.label_mem t mem⟩

theorem WellFormed.toAutomaton_toRecord (fits : A.WellFormed) (id name : String) :
    (A.toRecord id name).toAutomaton = .ok A := by
  have states : (A.states.entries.map fun e => (State.mk e.1 e.2).toRecord).map
      StateRecord.toState = A.states.entries.map fun e => ⟨e.1, e.2⟩ := by
    simp [Function.comp_def]
  have transitions : (A.transitions.toList.map Transition.toRecord).map
      TransitionRecord.toTransition = A.transitions.toList := by
    simp [Function.comp_def]
  simp only [MachineRecord.toAutomaton, toRecord, states, transitions, OrderedSet.ofList_toList,
    fits.ofParts_eq, ne_eq, not_true, if_false]

end Automaton

end LanguageTheory

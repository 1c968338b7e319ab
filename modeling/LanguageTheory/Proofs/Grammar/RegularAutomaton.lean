import LanguageTheory.Proofs.Automaton.Construction
import LanguageTheory.Proofs.Automaton.Deterministic
import LanguageTheory.Proofs.FreshName
import LanguageTheory.Proofs.Grammar.RegularForm
import LanguageTheory.RegularGrammar

/-!
Automata of regular grammars. The automaton moves as the productions say (`moves_ruleAutomaton`): a
production that goes on is a move between non-terminals, and one that ends is a move to a final
state that is never left. So a non-terminal derives exactly the words that its state accepts.
-/

set_option autoImplicit false
set_option relaxedAutoImplicit false

namespace LanguageTheory.Grammar

variable {G : Grammar}

section Parts

def finalName (G : Grammar) : StateName :=
  ((StateNameSupply.ofStem StateNameSupply.defaultStem).nextFree G.nonTerminals.toList).1

/-- The state in which productions without a non-terminal end. -/
def finalState (G : Grammar) : State :=
  ⟨G.finalName, ⟨false, true⟩⟩

def symbolStates (G : Grammar) : List State :=
  G.nonTerminals.toList.map fun symbol =>
    let isStart := decide (symbol = G.start)
    State.mk symbol ⟨isStart, isStart && decide ([] ∈ G.table.bodies G.start)⟩

def ruleTransitions (G : Grammar) : List Transition :=
  G.table.productions.filterMap fun p => ruleTransition G.finalName p.1 p.2

private theorem finalName_not_mem (G : Grammar) : G.finalName ∉ G.nonTerminals :=
  StateNameSupply.nextFree_not_mem _ G.nonTerminals.toList

def ruleStates (G : Grammar) : List State := G.symbolStates ++ [G.finalState]

private theorem names_ruleStates (G : Grammar) :
    G.ruleStates.map State.name = G.nonTerminals.toList ++ [G.finalName] := by
  simp [ruleStates, symbolStates, finalState, Function.comp_def]

private theorem nodup_ruleStates (G : Grammar) : (G.ruleStates.map State.name).Nodup := by
  rw [names_ruleStates]
  refine List.nodup_append.mpr ⟨G.nonTerminals.nodup, List.nodup_singleton _, ?_⟩
  rintro name known other mem rfl
  exact G.finalName_not_mem (List.mem_singleton.mp mem ▸ known)

private theorem mem_ruleStates {s : State} : s ∈ G.ruleStates ↔
    (∃ symbol ∈ G.nonTerminals, s = ⟨symbol, ⟨decide (symbol = G.start),
      decide (symbol = G.start) && decide ([] ∈ G.table.bodies G.start)⟩⟩) ∨ s = G.finalState := by
  simp [ruleStates, symbolStates, eq_comm]

private theorem mem_ruleTransitions {t : Transition} : t ∈ G.ruleTransitions ↔ ∃ head a,
    ((head, [a]) ∈ G.table.productions ∧ t = .plain head a G.finalName) ∨
      ∃ B, (head, [a, B]) ∈ G.table.productions ∧ t = .plain head a B := by
  rw [ruleTransitions, List.mem_filterMap]
  constructor
  · rintro ⟨⟨head, body⟩, mem, same⟩
    match body, mem, same with
    | [], _, same => cases same
    | [a], mem, same => exact ⟨head, a, Or.inl ⟨mem, (Option.some.inj same).symm⟩⟩
    | [a, B], mem, same => exact ⟨head, a, Or.inr ⟨B, mem, (Option.some.inj same).symm⟩⟩
    | _ :: _ :: _ :: _, _, same => cases same
  · rintro ⟨head, a, ⟨mem, rfl⟩ | ⟨B, mem, rfl⟩⟩
    · exact ⟨(head, [a]), mem, rfl⟩
    · exact ⟨(head, [a, B]), mem, rfl⟩

def ruleAutomaton (G : Grammar) : Automaton where
  states := OrderedTable.ofList (G.ruleStates.map fun s => (s.name, s.role))
  alphabet := G.terminals
  transitions := OrderedSet.ofList G.ruleTransitions
  entry := G.start

private theorem ruleTransitions_fit (regular : G.Regular) {t : Transition}
    (mem : t ∈ G.ruleTransitions) :
    t.source ∈ G.ruleStates.map State.name ∧ t.target ∈ G.ruleStates.map State.name ∧
      (t.label = Symbol.epsilon ∨ t.label ∈ G.terminals) := by
  rw [names_ruleStates]
  obtain ⟨head, a, ⟨member, rfl⟩ | ⟨B, member, rfl⟩⟩ := mem_ruleTransitions.mp mem
  · have source := List.mem_append_left [G.finalName] (regular.free.head_mem member)
    cases regular.form head [a] member with
    | last terminal =>
      exact ⟨source, List.mem_append_right _ (List.mem_singleton_self _), Or.inr terminal⟩
  · have source := List.mem_append_left [G.finalName] (regular.free.head_mem member)
    cases regular.form head [a, B] member with
    | next terminal known => exact ⟨source, List.mem_append_left _ known, Or.inr terminal⟩

private theorem ofParts_eq_ruleAutomaton (fits : G.WellFormed) (regular : G.Regular) :
    Automaton.ofParts G.ruleStates G.terminals G.ruleTransitions = .ok G.ruleAutomaton := by
  have begins := mem_ruleStates.mpr (Or.inl ⟨G.start, fits.start_mem, rfl⟩)
  have single (s : State) (mem : s ∈ G.ruleStates) (isEntry : s.role.isEntry = true) :
      s.name = G.start := by
    rcases mem_ruleStates.mp mem with ⟨symbol, _, rfl⟩ | rfl
    · exact of_decide_eq_true isEntry
    · cases isEntry
  exact Automaton.ofParts_eq_ok G.nodup_ruleStates begins (decide_eq_true rfl) single
    fun t mem => ruleTransitions_fit regular mem

private theorem toAutomaton_eq (regular : G.rank = .regular) : G.toAutomaton =
    Automaton.ofParts G.ruleStates G.terminals G.ruleTransitions := by
  rw [toAutomaton, requireRegular_iff.mpr regular]
  rfl

theorem moves_ruleAutomaton {source target : StateName} {label : Symbol} :
    G.ruleAutomaton.Moves source label target ↔
      ((source, [label]) ∈ G.table.productions ∧ target = G.finalName) ∨
        (source, [label, target]) ∈ G.table.productions := by
  have stored {t : Transition} : t ∈ G.ruleAutomaton.transitions ↔ t ∈ G.ruleTransitions :=
    OrderedSet.mem_ofList
  constructor
  · rintro ⟨t, mem, rfl, rfl, rfl⟩
    obtain ⟨head, a, ⟨member, rfl⟩ | ⟨B, member, rfl⟩⟩ := mem_ruleTransitions.mp (stored.mp mem)
    · exact Or.inl ⟨member, rfl⟩
    · exact Or.inr member
  · rintro (⟨member, rfl⟩ | member)
    · have made := mem_ruleTransitions.mpr ⟨source, label, Or.inl ⟨member, rfl⟩⟩
      exact ⟨_, stored.mpr made, rfl, rfl, rfl⟩
    · have made := mem_ruleTransitions.mpr ⟨source, label, Or.inr ⟨target, member, rfl⟩⟩
      exact ⟨_, stored.mpr made, rfl, rfl, rfl⟩

private theorem isExit_ruleAutomaton (fits : G.WellFormed) {name : StateName} :
    G.ruleAutomaton.isExit name = true ↔
      name = G.finalName ∨ name = G.start ∧ (name, []) ∈ G.table.productions := by
  have found {role : StateRole} : G.ruleAutomaton.states.get? name = some role ↔
      ⟨name, role⟩ ∈ G.ruleStates := Automaton.get?_ofStates G.nodup_ruleStates
  simp only [Automaton.isExit_iff, found]
  constructor
  · rintro ⟨role, mem, isExit⟩
    rcases mem_ruleStates.mp mem with ⟨symbol, _, same⟩ | same
    · obtain ⟨rfl, rfl⟩ := State.mk.inj same
      obtain ⟨isStart, erases⟩ := (Bool.and_eq_true _ _).mp isExit
      have isStart := of_decide_eq_true isStart
      refine Or.inr ⟨isStart, ?_⟩
      rw [isStart]
      exact mem_bodies_table_iff.mp (of_decide_eq_true erases)
    · exact Or.inl (State.mk.inj same).1
  · rintro (rfl | ⟨rfl, erases⟩)
    · exact ⟨⟨false, true⟩, mem_ruleStates.mpr (Or.inr rfl), rfl⟩
    · refine ⟨⟨true, true⟩, mem_ruleStates.mpr (Or.inl ⟨G.start, fits.start_mem, ?_⟩), rfl⟩
      simp [mem_bodies_table_iff.mpr erases]

end Parts

section Words

private theorem wellFormed_ruleAutomaton (fits : G.WellFormed) (regular : G.Regular) :
    G.ruleAutomaton.WellFormed :=
  Automaton.wellFormed_of_ofParts (ofParts_eq_ruleAutomaton fits regular)

private theorem voiced_ruleAutomaton (fits : G.WellFormed) : G.ruleAutomaton.Voiced := by
  intro source target move
  rcases moves_ruleAutomaton.mp move with ⟨member, _⟩ | member
  · exact fits.body_visible member List.mem_cons_self
  · exact fits.body_visible member List.mem_cons_self

private theorem acceptsFrom_finalName (fits : G.WellFormed) (free : G.ContextFree) {word : Word} :
    G.ruleAutomaton.AcceptsFrom G.finalName word ↔ word = [] := by
  have voiced := voiced_ruleAutomaton fits
  cases word with
  | nil =>
    rw [voiced.acceptsFrom_nil, isExit_ruleAutomaton fits]
    exact ⟨fun _ => rfl, fun _ => Or.inl rfl⟩
  | cons a rest =>
    rw [voiced.acceptsFrom_cons]
    constructor
    · rintro ⟨next, move, _⟩
      rcases moves_ruleAutomaton.mp move with ⟨member, _⟩ | member
      · exact absurd (free.head_mem member) G.finalName_not_mem
      · exact absurd (free.head_mem member) G.finalName_not_mem
    · intro none
      cases none

private theorem acceptsFrom_ruleAutomaton_iff (fits : G.WellFormed) (regular : G.Regular)
    (disjoint : G.Disjoint) {head : Symbol} (known : head ∈ G.nonTerminals) {word : Word} :
    G.ruleAutomaton.AcceptsFrom head word ↔ G.DerivesWord head word := by
  have voiced := voiced_ruleAutomaton fits
  induction word generalizing head with
  | nil =>
    rw [voiced.acceptsFrom_nil, isExit_ruleAutomaton fits, regular.derivesWord_nil disjoint known]
    constructor
    · rintro (rfl | ⟨_, erases⟩)
      · exact absurd known G.finalName_not_mem
      · exact erases
    · intro erases
      cases regular.form head [] erases with
      | empty allowed => exact Or.inr ⟨(List.cons.inj allowed.1).1, erases⟩
  | cons a rest ih =>
    rw [voiced.acceptsFrom_cons, regular.derivesWord_cons disjoint known]
    have next_known {B : Symbol} (member : (head, [a, B]) ∈ G.table.productions) :
        B ∈ G.nonTerminals := by
      cases regular.form head [a, B] member with
      | next _ known => exact known
    constructor
    · rintro ⟨next, move, accepted⟩
      rcases moves_ruleAutomaton.mp move with ⟨member, rfl⟩ | member
      · exact Or.inl ⟨(acceptsFrom_finalName fits regular.free).mp accepted, member⟩
      · exact Or.inr ⟨next, member, (ih (next_known member)).mp accepted⟩
    · rintro (⟨rfl, member⟩ | ⟨B, member, derived⟩)
      · exact ⟨G.finalName, moves_ruleAutomaton.mpr (Or.inl ⟨member, rfl⟩),
          (acceptsFrom_finalName fits regular.free).mpr rfl⟩
      · exact ⟨B, moves_ruleAutomaton.mpr (Or.inr member), (ih (next_known member)).mpr derived⟩

theorem accepts_ruleAutomaton_iff (fits : G.WellFormed) (regular : G.Regular)
    (disjoint : G.Disjoint) {word : Word} :
    G.ruleAutomaton.accepts word = true ↔ G.Generates word := by
  have readable := (voiced_ruleAutomaton fits).readable word
  rw [Automaton.accepts_iff_recognizes readable]
  exact acceptsFrom_ruleAutomaton_iff fits regular disjoint fits.start_mem

theorem toAutomaton_eq_ok (fits : G.WellFormed) (regular : G.Regular) :
    G.toAutomaton = .ok G.ruleAutomaton :=
  (toAutomaton_eq (rank_eq_regular_iff.mpr regular)).trans (ofParts_eq_ruleAutomaton fits regular)

/-- A grammar has an automaton exactly if it is regular, and the automaton then accepts the words
that the grammar generates. -/
theorem toAutomaton_exact (fits : G.WellFormed) (disjoint : G.Disjoint) :
    ((∃ A, G.toAutomaton = .ok A) ↔ G.rank = .regular) ∧
      ∀ A, G.toAutomaton = .ok A → A.WellFormed ∧
        ∀ word, A.accepts word = true ↔ G.Generates word := by
  have only_regular {A : Automaton} (result : G.toAutomaton = .ok A) : G.rank = .regular := by
    by_contra other
    have refused : ∃ e, G.requireRegular .grammarToMachine = .error e := by
      cases required : G.requireRegular .grammarToMachine with
      | error e => exact ⟨e, rfl⟩
      | ok _ => exact absurd (requireRegular_iff.mp required) other
    obtain ⟨e, refused⟩ := refused
    rw [toAutomaton, refused] at result
    cases result
  refine ⟨⟨fun ⟨A, result⟩ => only_regular result, fun regular => ?_⟩, fun A result => ?_⟩
  · exact ⟨_, toAutomaton_eq_ok fits (rank_eq_regular_iff.mp regular)⟩
  · have regular := rank_eq_regular_iff.mp (only_regular result)
    obtain rfl := Except.ok.inj ((toAutomaton_eq_ok fits regular).symm.trans result)
    exact ⟨wellFormed_ruleAutomaton fits regular,
      fun word => accepts_ruleAutomaton_iff fits regular disjoint⟩

/-- The usual name of the final state is that of a non-terminal, two bodies begin alike, and the
start symbol has an empty body. -/
theorem toAutomaton_exact_erasing_start :
    ∃ G A, ofProductions (OrderedSet.ofList ["S", "q0"]) (OrderedSet.ofList ["a", "b"]) "S"
        [⟨["S"], ["a", "q0"]⟩, ⟨["S"], ["a"]⟩, ⟨["S"], []⟩, ⟨["q0"], ["b"]⟩,
          ⟨["q0"], ["b", "q0"]⟩] = .ok G ∧
      G.WellFormed ∧ G.Disjoint ∧ G.rank = .regular ∧ G.toAutomaton = .ok A ∧
      A.stateNames = ["S", "q0", "q1"] ∧ G.Generates [] ∧ G.Generates ["a", "b", "b"] ∧
      ¬ G.Generates ["b"] := by
  obtain ⟨G, A, built, disjoint, result, names, accepted, accepted', refused⟩ :
      ∃ G A, ofProductions (OrderedSet.ofList ["S", "q0"]) (OrderedSet.ofList ["a", "b"]) "S"
          [⟨["S"], ["a", "q0"]⟩, ⟨["S"], ["a"]⟩, ⟨["S"], []⟩, ⟨["q0"], ["b"]⟩,
            ⟨["q0"], ["b", "q0"]⟩] = .ok G ∧
        G.Disjoint ∧ G.toAutomaton = .ok A ∧ A.stateNames = ["S", "q0", "q1"] ∧
        A.accepts [] = true ∧ A.accepts ["a", "b", "b"] = true ∧ A.accepts ["b"] = false :=
    ⟨_, _, rfl, by decide, rfl, by decide, by decide, by decide, by decide⟩
  have fits := wellFormed_of_ofProductions built
  obtain ⟨regular, made⟩ := toAutomaton_exact fits disjoint
  have words := (made A result).2
  refine ⟨G, A, built, fits, disjoint, regular.mp ⟨A, result⟩, result, names, (words _).mp accepted,
    (words _).mp accepted', fun generated => ?_⟩
  rw [(words _).mpr generated] at refused
  cases refused

end Words

end LanguageTheory.Grammar

import LanguageTheory.Collection.OrderedTable
import LanguageTheory.Error

/-!
Finite automata with named states. An automaton may be non-deterministic: several transitions may
leave a state on one symbol, and transitions on `ε` read nothing. `Automaton.ofParts` checks the
parts and gives the first fault it meets; `Automaton.WellFormed` is what it guarantees. The text of
an automaton marks the entry by `>` and accepting states by `*`.
-/

set_option autoImplicit false
set_option relaxedAutoImplicit false

namespace LanguageTheory

/-- The part that a state plays: whether runs begin there and whether they may end there. -/
structure StateRole where
  isEntry : Bool
  isExit : Bool
  deriving DecidableEq

structure State where
  name : StateName
  role : StateRole
  deriving DecidableEq

/-- A move between two states; the stack symbols are only kept, no algorithm reads them. -/
structure Transition where
  source : StateName
  label : Symbol
  target : StateName
  push : Option Symbol
  pop : Option Symbol
  deriving DecidableEq

namespace Transition

def plain (source : StateName) (label : Symbol) (target : StateName) : Transition :=
  ⟨source, label, target, none, none⟩

def isSilent (t : Transition) : Bool := decide (t.label = Symbol.epsilon)

end Transition

/-- A finite automaton. The entry is stored beside the roles; both agree if it is well formed. -/
structure Automaton where
  states : OrderedTable StateName StateRole
  alphabet : Alphabet
  transitions : OrderedSet Transition
  entry : StateName
  deriving DecidableEq

namespace Automaton

def stateNames (A : Automaton) : List StateName := A.states.keys

def state? (A : Automaton) (name : StateName) : Option State :=
  (A.states.get? name).map fun role => ⟨name, role⟩

def isExit (A : Automaton) (name : StateName) : Bool :=
  ((A.states.get? name).map StateRole.isExit).getD false

def exits (A : Automaton) : List StateName := (A.states.filter fun _ role => role.isExit).keys

def transitionsFrom (A : Automaton) (name : StateName) : List Transition :=
  A.transitions.toList.filter fun t => decide (t.source = name)

def targets (A : Automaton) (name : StateName) (symbol : Symbol) : SortedSet StateName :=
  SortedSet.ofList
    (((A.transitionsFrom name).filter fun t => decide (t.label = symbol)).map Transition.target)

@[simp] theorem mem_targets {A : Automaton} {name target : StateName} {symbol : Symbol} :
    target ∈ A.targets name symbol ↔
      ∃ t ∈ A.transitions, t.source = name ∧ t.label = symbol ∧ t.target = target := by
  simp only [targets, transitionsFrom, SortedSet.mem_ofList, List.mem_map, List.mem_filter,
    OrderedSet.mem_toList, decide_eq_true_eq, and_assoc]

def hasSilentTransitions (A : Automaton) : Bool := A.transitions.toList.any Transition.isSilent

/-- No transition reads nothing, and at most one leaves a state on a symbol. -/
def Deterministic (A : Automaton) : Prop :=
  A.hasSilentTransitions = false ∧
    (A.transitions.toList.map fun t => (t.source, t.label)).Nodup

instance (A : Automaton) : Decidable A.Deterministic := inferInstanceAs (Decidable (_ ∧ _))

def requireDeterministic (A : Automaton) (operation : Operation) : Except Error Unit :=
  if A.Deterministic then .ok () else .error (.notDeterministic operation)

section Required

variable {α : Type} {A : Automaton} {operation : Operation} {a b : α}

theorem requireDeterministic_bind_eq_ok_iff {next : Except Error α} :
    (A.requireDeterministic operation >>= fun _ => next) = .ok a ↔
      A.Deterministic ∧ next = .ok a := by
  unfold requireDeterministic
  split
  · rename_i det
    exact (and_iff_right det).symm
  · rename_i refused
    constructor
    · intro result
      cases result
    · exact fun result => absurd result.1 refused

theorem requireDeterministic_return_eq_ok_iff :
    (A.requireDeterministic operation >>= fun _ => pure a) = .ok b ↔ A.Deterministic ∧ b = a :=
  requireDeterministic_bind_eq_ok_iff.trans
    (and_congr_right fun _ => ⟨fun result => (Except.ok.inj result).symm, fun same => same ▸ rfl⟩)

end Required

/-- Both automata have the same parts; the order in which the parts are listed does not matter. -/
def Same (A B : Automaton) : Prop :=
  A.states.Same (· = ·) B.states ∧ A.alphabet.Same B.alphabet ∧
    A.transitions.Same B.transitions ∧ A.entry = B.entry

instance (A B : Automaton) : Decidable (A.Same B) := inferInstanceAs (Decidable (_ ∧ _))

/-- The parts fit together: the entry is the one state marked as entry, transitions join states,
and their labels are `ε` or symbols of the alphabet. -/
structure WellFormed (A : Automaton) : Prop where
  entry_role : ∃ role, A.states.get? A.entry = some role ∧ role.isEntry = true
  entry_unique : ∀ name role, A.states.get? name = some role → role.isEntry = true →
    name = A.entry
  source_mem : ∀ t ∈ A.transitions, t.source ∈ A.states.keys
  target_mem : ∀ t ∈ A.transitions, t.target ∈ A.states.keys
  label_mem : ∀ t ∈ A.transitions, t.label = Symbol.epsilon ∨ t.label ∈ A.alphabet

/-- Adds the states of a list to a table, remembering the entry; two entries, or two states of one
name, are refused. -/
def declareStates (states : OrderedTable StateName StateRole) (entry : Option StateName) :
    List State → Except Error (OrderedTable StateName StateRole × Option StateName)
  | [] => .ok (states, entry)
  | s :: rest =>
    match s.role.isEntry, entry with
    | true, some first => .error (.multipleEntries first s.name)
    | isEntry, _ =>
      if s.name ∈ states.keys then .error (.duplicateState s.name)
      else declareStates (states.insert s.name s.role) (if isEntry then some s.name else entry) rest

def transitionFault? (states : OrderedTable StateName StateRole) (alphabet : Alphabet)
    (t : Transition) : Option Error :=
  if t.source ∉ states.keys then some (.unknownState t.source)
  else if t.target ∉ states.keys then some (.unknownState t.target)
  else if t.label ≠ Symbol.epsilon ∧ t.label ∉ alphabet then some (.unknownSymbol t.label)
  else none

/-- The automaton with the given parts, if they fit together. -/
def ofParts (states : List State) (alphabet : Alphabet) (transitions : List Transition) :
    Except Error Automaton :=
  match declareStates .empty none states with
  | .error e => .error e
  | .ok (_, none) => .error .missingEntry
  | .ok (table, some entry) =>
    match transitions.findSome? (transitionFault? table alphabet) with
    | some e => .error e
    | none => .ok ⟨table, alphabet, OrderedSet.ofList transitions, entry⟩

end Automaton

def Transition.text (t : Transition) : String :=
  t.source ++ " -" ++ t.label ++ "-> " ++ t.target

def State.text (s : State) : String :=
  (if s.role.isEntry then ">" else "") ++ s.name ++ (if s.role.isExit then "*" else "")

def Automaton.text (A : Automaton) : String :=
  "states: " ++ String.intercalate ", " (A.states.entries.map fun e => State.text ⟨e.1, e.2⟩)
    ++ "\nalphabet: " ++ String.intercalate ", " A.alphabet.toList ++ "\n"
    ++ String.join (A.transitions.toList.map fun t => t.text ++ "\n")

end LanguageTheory

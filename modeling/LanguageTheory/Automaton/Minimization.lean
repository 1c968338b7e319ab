import LanguageTheory.Automaton.Reachability
import LanguageTheory.Collection.Iteration

/-!
Minimization of deterministic automata. The states are first split into accepting and other ones;
then a class is split as long as two of its members move to different classes on some symbol. A
missing transition is a move to a sink of its own. When nothing is split any more, every class
becomes one state.
-/

set_option autoImplicit false
set_option relaxedAutoImplicit false

namespace LanguageTheory.Automaton

def acceptanceClasses (A : Automaton) : List (SortedSet StateName) :=
  [SortedSet.ofList (A.stateNames.filter A.isExit),
    SortedSet.ofList (A.stateNames.filter fun name => !A.isExit name)].filter
    fun states => !states.isEmpty

def classIndex? (classes : List (SortedSet StateName)) (name : StateName) : Option Nat :=
  classes.findIdx? fun states => decide (name ∈ states)

/-- For each symbol the class that a state moves to, or none for the sink. -/
def signature (A : Automaton) (classes : List (SortedSet StateName)) (name : StateName) :
    List (Option Nat) :=
  A.alphabet.visible.toList.map fun symbol =>
    (A.targets name symbol).least?.bind (classIndex? classes)

/-- The parts of a class whose members have one signature, in the order of their least members. -/
def splitClass (A : Automaton) (classes : List (SortedSet StateName))
    (states : SortedSet StateName) : List (SortedSet StateName) :=
  (OrderedSet.ofList (states.toList.map (A.signature classes))).toList.map fun signature =>
    states.filter fun name => decide (A.signature classes name = signature)

def splitClasses (A : Automaton) (classes : List (SortedSet StateName)) :
    List (SortedSet StateName) :=
  classes.flatMap (A.splitClass classes)

/-- The classes of states that no word tells apart; every round but the last adds a class. -/
def stableClasses (A : Automaton) : List (SortedSet StateName) :=
  stabilize A.splitClasses (A.states.size + 1) A.acceptanceClasses

def equivalentClasses (A : Automaton) : Except Error (List (SortedSet StateName)) := do
  A.requireDeterministic .equivalentClasses
  return A.stableClasses

def className (classes : List (SortedSet StateName)) (name : StateName) : StateName :=
  ((classes.find? fun states => decide (name ∈ states)).map compositeName).getD name

/-- The automaton with one state for each class, which moves as the least member does. -/
def mergeClasses (A : Automaton) (classes : List (SortedSet StateName)) : Automaton where
  states := OrderedTable.ofList (classes.filterMap fun states =>
    states.least?.map fun least =>
      (compositeName states, ⟨decide (A.entry ∈ states), A.isExit least⟩))
  alphabet := A.alphabet
  transitions := OrderedSet.ofList (classes.flatMap fun states =>
    match states.least? with
    | none => []
    | some least => (A.transitionsFrom least).map fun t =>
        Transition.plain (compositeName states) t.label (className classes t.target))
  entry := className classes A.entry

/-- The automaton with only the states that lie between the entry and an accepting state. -/
def trim (A : Automaton) : Automaton := A.removeDeadStates.removeUnreachableStates

def minimize (A : Automaton) : Except Error Automaton := do
  A.requireDeterministic .minimize
  return A.trim.mergeClasses A.trim.stableClasses

end LanguageTheory.Automaton

import LanguageTheory.Automaton.Basic
import LanguageTheory.Collection.Iteration

/-!
Which states matter. A state is reachable if some path leads there from the entry, and live if some
path leads from there to an accepting state; states of the other kinds can be removed without any
change to the accepted words. The entry always stays.
-/

set_option autoImplicit false
set_option relaxedAutoImplicit false

namespace LanguageTheory.Automaton

def reachableStates (A : Automaton) : List StateName :=
  Discovery.reached id (fun name => (A.transitionsFrom name).map Transition.target)
    (A.states.size + 1) [A.entry]

def unreachableStates (A : Automaton) : List StateName :=
  A.stateNames.filter fun name => decide (name ∉ A.reachableStates)

def sourcesInto (A : Automaton) (names : List StateName) (symbol : Symbol) :
    OrderedSet StateName :=
  OrderedSet.ofList
    ((A.transitions.toList.filter fun t => decide (t.label = symbol ∧ t.target ∈ names)).map
      Transition.source)

def liveStates (A : Automaton) : List StateName :=
  Discovery.reached id
    (fun name =>
      (A.transitions.toList.filter fun t => decide (t.target = name)).map Transition.source)
    (A.states.size + 1) A.exits

/-- The states that pass a test and the transitions between them. -/
def restrict (A : Automaton) (keep : StateName → Bool) : Automaton where
  states := A.states.filter fun name _ => keep name
  alphabet := A.alphabet
  transitions := A.transitions.filter fun t => keep t.source && keep t.target
  entry := A.entry

def removeUnreachableStates (A : Automaton) : Automaton :=
  let reachable := A.reachableStates
  A.restrict fun name => decide (name ∈ reachable)

/-- The automaton without its dead states; the entry stays even if it is dead. -/
def removeDeadStates (A : Automaton) : Automaton :=
  let live := A.liveStates
  A.restrict fun name => decide (name ∈ live ∨ name = A.entry)

def removeUnusedSymbols (A : Automaton) : Automaton :=
  { A with alphabet := A.alphabet.filter fun symbol =>
      A.transitions.toList.any fun t => decide (t.label = symbol) }

end LanguageTheory.Automaton

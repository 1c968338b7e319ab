import LanguageTheory.Automaton.Basic
import LanguageTheory.FreshName
import LanguageTheory.Grammar.Classification

/-!
Regular grammars and finite automata. A non-terminal is a state, a rule `A → a B` is a transition
from `A` to `B` on `a`, and a rule `A → a` is a transition into an accepting state of its own.
-/

set_option autoImplicit false
set_option relaxedAutoImplicit false

namespace LanguageTheory

namespace Grammar

/-- The transition that a rule becomes; an empty body becomes none. -/
def ruleTransition (final : StateName) (head : Symbol) : Word → Option Transition
  | [a] => some (Transition.plain head a final)
  | [a, B] => some (Transition.plain head a B)
  | _ => none

def toAutomaton (G : Grammar) : Except Error Automaton := do
  G.requireRegular .grammarToMachine
  let supply := StateNameSupply.ofStem StateNameSupply.defaultStem
  let final := (supply.nextFree G.nonTerminals.toList).1
  let startErases := decide ([] ∈ G.table.bodies G.start)
  let states := G.nonTerminals.toList.map fun symbol =>
    let isStart := decide (symbol = G.start)
    State.mk symbol ⟨isStart, isStart && startErases⟩
  Automaton.ofParts (states ++ [⟨final, ⟨false, true⟩⟩]) G.terminals
    (G.table.productions.filterMap fun p => ruleTransition final p.1 p.2)

end Grammar

namespace Automaton

/-- The non-terminals of states: the name of the state itself unless that is a terminal or `ε`, and
a new name then. `assigned` are the pairs found so far. -/
def assignSymbols (terminals : Alphabet) (names : List StateName) (supply : StateNameSupply)
    (assigned : List (StateName × Symbol)) : List StateName → List (StateName × Symbol)
  | [] => assigned
  | name :: rest =>
    if name ∈ terminals ∨ name = Symbol.epsilon then
      let taken := terminals.toList ++ names ++ assigned.map Prod.snd
      let (symbol, supply) := supply.nextFree taken
      assignSymbols terminals names supply (assigned ++ [(name, symbol)]) rest
    else assignSymbols terminals names supply (assigned ++ [(name, name)]) rest

/-- The productions of a transition: one to go on and, if the target accepts, one to end. -/
def transitionProductions (A : Automaton) (symbolOf : StateName → Symbol) (t : Transition) :
    List Production :=
  ⟨[symbolOf t.source], [t.label, symbolOf t.target]⟩ ::
    if A.isExit t.target then [⟨[symbolOf t.source], [t.label]⟩] else []

/-- A regular grammar for the words that a deterministic automaton accepts. If the entry accepts and
can be entered again, a new start symbol takes its bodies and the empty one. -/
def toGrammar (A : Automaton) : Except Error Grammar := do
  A.requireDeterministic .machineToGrammar
  let terminals := A.alphabet.visible
  let assigned := assignSymbols terminals A.stateNames
    (StateNameSupply.ofStem StateNameSupply.defaultStem) [] A.stateNames
  let symbolOf (name : StateName) : Symbol := (OrderedTable.lookUp name assigned).getD name
  let entry := symbolOf A.entry
  let productions := A.transitions.toList.flatMap (A.transitionProductions symbolOf)
  let nonTerminals := OrderedSet.ofList (assigned.map Prod.snd)
  if A.isExit A.entry then
    if A.transitions.toList.any fun t => decide (t.target = A.entry) then
      let start := (SymbolPool.avoiding (nonTerminals.toList ++ terminals.toList)).fresh.1
      let entryBodies := (productions.filter fun p => decide (p.head = [entry])).map
        Production.body
      Grammar.ofProductions (nonTerminals.insert start) terminals start
        (productions ++ (entryBodies ++ [[]]).map fun body => ⟨[start], body⟩)
    else
      Grammar.ofProductions nonTerminals terminals entry (productions ++ [⟨[entry], []⟩])
  else Grammar.ofProductions nonTerminals terminals entry productions

end Automaton

end LanguageTheory

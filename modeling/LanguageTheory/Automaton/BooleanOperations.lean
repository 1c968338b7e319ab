import LanguageTheory.Automaton.Basic
import LanguageTheory.Collection.Iteration
import LanguageTheory.FreshName

/-!
Union, intersection and complement. The union has a new entry with silent transitions to both
entries; states of one name are kept apart by a suffix, if the caller allows it.

The states of the intersection are the pairs of states that two deterministic automata reach by a
common word. A pair is named `left;right`; since names may contain semicolons, a number follows when
an earlier pair has that name already.

Completion sends every missing move to a sink that is never left; after that, exchanging accepting
and other states gives the words that were refused.
-/

set_option autoImplicit false
set_option relaxedAutoImplicit false

namespace LanguageTheory.Automaton

def withSuffix (A : Automaton) (suffix : String) : Automaton where
  states := OrderedTable.ofList (A.states.entries.map fun e => (e.1 ++ suffix, e.2))
  alphabet := A.alphabet
  transitions := A.transitions.map fun t =>
    { t with source := t.source ++ suffix, target := t.target ++ suffix }
  entry := A.entry ++ suffix

def sharedState? (A B : Automaton) : Option StateName :=
  B.stateNames.find? fun name => decide (name ∈ A.stateNames)

/-- The states with the mark of the entry taken away. -/
def inner (A : Automaton) : List (StateName × StateRole) :=
  A.states.entries.map fun e => (e.1, ⟨false, e.2.isExit⟩)

/-- Two automata side by side under a new entry, whose name is not used by either. -/
def join (A B : Automaton) (entryStem : String) : Automaton :=
  let supply := StateNameSupply.ofStem entryStem
  let entry := (supply.nextFree (A.stateNames ++ B.stateNames)).1
  { states := OrderedTable.ofList ((entry, ⟨true, false⟩) :: (A.inner ++ B.inner))
    alphabet := A.alphabet.union B.alphabet
    transitions := OrderedSet.ofList
      (Transition.plain entry Symbol.epsilon A.entry ::
        Transition.plain entry Symbol.epsilon B.entry ::
        (A.transitions.toList ++ B.transitions.toList))
    entry }

def union (A B : Automaton) (rename : Bool) (entryStem : String) : Except Error Automaton :=
  match A.sharedState? B with
  | none => .ok (A.join B entryStem)
  | some name =>
    if rename then .ok ((A.withSuffix "_1").join (B.withSuffix "_2") entryStem)
    else .error (.stateCollision name)

def commonMoves (A B : Automaton) (pair : StateName × StateName) :
    List (Symbol × (StateName × StateName)) :=
  (A.transitionsFrom pair.1).flatMap fun s =>
    ((B.transitionsFrom pair.2).filter fun t => decide (s.label = t.label)).map fun t =>
      (s.label, (s.target, t.target))

/-- The pairs of states reached by a common word, in order of discovery. -/
def commonPairs (A B : Automaton) : List (StateName × StateName) :=
  Discovery.reached id (fun pair => (A.commonMoves B pair).map Prod.snd)
    (A.states.size * B.states.size + 1) [(A.entry, B.entry)]

def pairName (taken : List StateName) (pair : StateName × StateName) : StateName :=
  let joined := pair.1 ++ ";" ++ pair.2
  if joined ∈ taken then ((StateNameSupply.ofStem (joined ++ ";")).nextFree taken).1 else joined

def namePairs (taken : List StateName) :
    List (StateName × StateName) → List ((StateName × StateName) × StateName)
  | [] => []
  | pair :: pairs =>
    let name := pairName taken pair
    (pair, name) :: namePairs (name :: taken) pairs

/-- The product of two automata, as far as it is reached by common words. -/
def product (A B : Automaton) : Automaton :=
  let named := namePairs [] (A.commonPairs B)
  let nameOf (pair : StateName × StateName) : StateName :=
    (OrderedTable.lookUp pair named).getD ""
  { states := OrderedTable.ofList (named.map fun e =>
      (e.2, ⟨decide (e.1 = (A.entry, B.entry)), A.isExit e.1.1 && B.isExit e.1.2⟩))
    alphabet := A.alphabet.union B.alphabet
    transitions := OrderedSet.ofList (named.flatMap fun e =>
      (A.commonMoves B e.1).map fun move => Transition.plain e.2 move.1 (nameOf move.2))
    entry := nameOf (A.entry, B.entry) }

def intersect (A B : Automaton) : Except Error Automaton := do
  A.requireDeterministic .intersect
  B.requireDeterministic .intersect
  return A.product B

def defaultSink : StateName := "_DSFC_"

def missingMoves (A : Automaton) : List (StateName × Symbol) :=
  A.stateNames.flatMap fun name =>
    (A.alphabet.visible.toList.filter fun symbol =>
      !(A.transitionsFrom name).any fun t => decide (t.label = symbol)).map fun symbol =>
        (name, symbol)

def sinkName (A : Automaton) : StateName :=
  if defaultSink ∈ A.stateNames then
    ((StateNameSupply.ofStem defaultSink).nextFree A.stateNames).1
  else defaultSink

/-- The automaton with a transition for every state and every symbol but `ε`. -/
def complete (A : Automaton) : Automaton :=
  if A.missingMoves.isEmpty then A
  else
    let sink := A.sinkName
    { A with
      states := A.states.insert sink ⟨false, false⟩
      transitions := A.transitions.insertMany
        ((A.missingMoves.map fun move => Transition.plain move.1 move.2 sink) ++
          (A.alphabet.visible.toList.map fun symbol => Transition.plain sink symbol sink)) }

def flipExits (A : Automaton) : Automaton :=
  { A with states := A.states.mapValues fun _ role => { role with isExit := !role.isExit } }

/-- A deterministic automaton for the words over the alphabet that the automaton refuses. -/
def complement (A : Automaton) : Except Error Automaton := do
  A.requireDeterministic .complement
  return A.complete.flipExits

end LanguageTheory.Automaton

import LanguageTheory.Automaton.Basic
import LanguageTheory.Collection.Iteration

/-!
Reading words. `Automaton.accepts` follows all states the automaton could be in: silent transitions
are taken by `closure`, and `advance` takes one symbol and closes the result again.

`Stepwise` runs an automaton one symbol at a time. Each call of `Stepwise.next` reads a symbol by
the first transition that fits; when none fits or the input is used up, one last step tells the
outcome, and after that there are no steps. Silent transitions are never taken.
-/

set_option autoImplicit false
set_option relaxedAutoImplicit false

namespace LanguageTheory

namespace Automaton

def silentTargets (A : Automaton) (name : StateName) : List StateName :=
  ((A.transitionsFrom name).filter Transition.isSilent).map Transition.target

/-- The states reached by silent transitions alone, the state itself included. Every transition puts
its target on the stack at most once. -/
def closure (A : Automaton) (name : StateName) : SortedSet StateName :=
  DepthFirst.reached A.silentTargets (A.transitions.size + 1) name

def closures (A : Automaton) : List (StateName × SortedSet StateName) :=
  A.stateNames.map fun name => (name, A.closure name)

/-- Adds the closure of a state, unless the state is there already and so its closure is as well. -/
def addClosure (A : Automaton) (covered : SortedSet StateName) (name : StateName) :
    SortedSet StateName :=
  if name ∈ covered then covered else covered.union (A.closure name)

/-- The union of the closures of some states, visited in the given order. -/
def closureOfAll (A : Automaton) (names : List StateName) : SortedSet StateName :=
  names.foldl A.addClosure .empty

def targetsOfAll (A : Automaton) (current : SortedSet StateName) (symbol : Symbol) :
    SortedSet StateName :=
  SortedSet.ofList (current.toList.flatMap fun name => (A.targets name symbol).toList)

def advance (A : Automaton) (current : SortedSet StateName) (symbol : Symbol) :
    SortedSet StateName :=
  A.closureOfAll (A.targetsOfAll current symbol).toList

def statesAfter (A : Automaton) (word : Word) : SortedSet StateName :=
  word.foldl A.advance (A.closure A.entry)

/-- Reads a word from some states on. When no state is left the word is refused at once, whatever is
still to be read. -/
def acceptsFromSet (A : Automaton) : SortedSet StateName → Word → Bool
  | current, [] => current.toList.any A.isExit
  | current, symbol :: word =>
    let next := A.advance current symbol
    if next.isEmpty then false else A.acceptsFromSet next word

/-- Whether some state in which the automaton can be after the word is accepting. -/
def accepts (A : Automaton) (word : Word) : Bool := A.acceptsFromSet (A.closure A.entry) word

end Automaton

inductive Step where
  | took (transition : Transition)
  | finished (accepted : Bool)
  deriving DecidableEq

/-- A run that can be continued; `position` is the place of the next symbol in the input. -/
structure Stepwise where
  input : Word
  position : Nat
  current : StateName
  isOver : Bool
  deriving DecidableEq

namespace Stepwise

def start (A : Automaton) (word : Word) : Stepwise := ⟨word, 0, A.entry, false⟩

def remaining (run : Stepwise) : Word := run.input.drop run.position

def next (A : Automaton) (run : Stepwise) : Option Step × Stepwise :=
  if run.isOver then (none, run)
  else
    match run.input[run.position]? with
    | none => (some (.finished (A.isExit run.current)), { run with isOver := true })
    | some symbol =>
      match (A.transitionsFrom run.current).find? fun t => decide (t.label = symbol) with
      | some t =>
        (some (.took t), { run with position := run.position + 1, current := t.target })
      | none => (some (.finished false), { run with isOver := true })

def steps (A : Automaton) : Nat → Stepwise → List (Option Step × Stepwise)
  | 0, _ => []
  | count + 1, run =>
    let outcome := next A run
    outcome :: steps A count outcome.2

end Stepwise

end LanguageTheory

import LanguageTheory.Automaton.Basic
import LanguageTheory.Automaton.Run
import LanguageTheory.Collection.Iteration

/-!
Deterministic machines over configurations of any type, and the automata they give. A
configuration becomes a state under its name, and names decide which configurations count as the
same: of two configurations with one name only the first that is met is looked at further.

The subset construction is the machine whose configurations are the sets of states in which an
automaton can be after some word, under the composite names of the sets.
-/

set_option autoImplicit false
set_option relaxedAutoImplicit false

namespace LanguageTheory

/-- A machine that moves from one configuration to at most one other on each symbol. -/
structure MoveSystem (σ : Type) where
  alphabet : Alphabet
  start : σ
  move : σ → Symbol → Option σ
  isAccepting : σ → Bool
  name : σ → StateName

namespace MoveSystem

variable {σ : Type}

def successors (M : MoveSystem σ) (c : σ) : List σ := M.alphabet.toList.filterMap (M.move c)

/-- The configurations met from the start on, one for each name; `bound` bounds their number. -/
def configurations (M : MoveSystem σ) (bound : Nat) : List σ :=
  Discovery.reached M.name M.successors bound [M.start]

def role (M : MoveSystem σ) (c : σ) : StateRole :=
  ⟨decide (M.name c = M.name M.start), M.isAccepting c⟩

def transitionsOf (M : MoveSystem σ) (c : σ) : List Transition :=
  M.alphabet.toList.filterMap fun symbol =>
    (M.move c symbol).map fun d => Transition.plain (M.name c) symbol (M.name d)

def automaton (M : MoveSystem σ) (bound : Nat) : Automaton :=
  let met := M.configurations bound
  { states := OrderedTable.ofList (met.map fun c => (M.name c, M.role c))
    alphabet := M.alphabet
    transitions := OrderedSet.ofList (met.flatMap M.transitionsOf)
    entry := M.name M.start }

end MoveSystem

namespace Automaton

/-- The machine whose configurations are the non-empty sets of states the automaton can be in. -/
def subsetSystem (A : Automaton) : MoveSystem (SortedSet StateName) where
  alphabet := A.alphabet.visible
  start := A.closure A.entry
  move current symbol :=
    let moved := A.advance current symbol
    if moved.isEmpty then none else some moved
  isAccepting current := current.toList.any A.isExit
  name := compositeName

/-- A deterministic automaton for the same words; there are at most as many sets to meet as the
states have subsets. -/
def determinize (A : Automaton) : Automaton :=
  A.subsetSystem.automaton (Nat.pow 2 A.states.size + 1)

end Automaton

end LanguageTheory

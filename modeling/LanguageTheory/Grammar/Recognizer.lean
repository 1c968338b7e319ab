import LanguageTheory.Grammar.PredictiveTable

/-!
The recognizer that a predictive table drives. Its configuration is a stack, whose top is a symbol
still to be derived, and the input that has not been read. It makes steps until it accepts or
rejects (`runToEnd`). Under one lookahead a table without conflicts cannot expand a non-terminal
inside its own expansion, so the number of steps is bounded by a number that depends on the table
and the length of the input only, unless the end marker is itself a non-terminal that can vanish;
`stepBound` is such a number, and `run` makes no more steps.
-/

set_option autoImplicit false
set_option relaxedAutoImplicit false

namespace LanguageTheory

inductive ParseAction where
  | expand (nonTerminal : Symbol) (body : Word)
  | read (symbol : Symbol)
  | accept
  | reject
  deriving DecidableEq

/-- The stack, top first, and the input that has not been read, end marker included. -/
structure ParseConfig where
  stack : List Symbol
  input : List Symbol
  deriving DecidableEq

/-- A step: the configuration before it and what is done. -/
structure ParseStep where
  config : ParseConfig
  action : ParseAction
  deriving DecidableEq

/-- A run that goes on: the steps made so far, last first, and the configuration to which they
lead. -/
structure ParseRun where
  made : List ParseStep
  config : ParseConfig

namespace ParseConfig

/-- The symbol on top of the stack; below the last symbol lies the end marker. -/
def top (c : ParseConfig) : Symbol := c.stack.headD Symbol.endOfInput

/-- The symbol that comes next; behind the last symbol lies the end marker. -/
def lookahead (c : ParseConfig) : Symbol := c.input.headD Symbol.endOfInput

def bottomUp (c : ParseConfig) : List Symbol := c.stack.reverse

def after (c : ParseConfig) : ParseAction → ParseConfig
  | .expand _ body => ⟨body ++ c.stack.tail, c.input⟩
  | .read _ => ⟨c.stack.tail, c.input.tail⟩
  | .accept => c
  | .reject => c

end ParseConfig

namespace ParseAction

def isFinal : ParseAction → Bool
  | expand _ _ => false
  | read _ => false
  | accept => true
  | reject => true

end ParseAction

namespace PredictiveTable

def action (T : PredictiveTable) (c : ParseConfig) : ParseAction :=
  if c.top = Symbol.endOfInput ∧ c.lookahead = Symbol.endOfInput then .accept
  else if c.top ∈ T.nonTerminals then
    match T.body? c.top c.lookahead with
    | some body => .expand c.top body
    | none => .reject
  else if c.top = c.lookahead then .read c.top
  else .reject

/-- The steps from a configuration on, up to a given number and not beyond a final one. -/
def stepsFrom (T : PredictiveTable) : Nat → ParseConfig → List ParseStep
  | 0, _ => []
  | fuel + 1, c =>
    let action := T.action c
    ⟨c, action⟩ :: if action.isFinal then [] else T.stepsFrom fuel (c.after action)

def initial (T : PredictiveTable) (word : Word) : ParseConfig :=
  ⟨[T.start, Symbol.endOfInput], word ++ [Symbol.endOfInput]⟩

def longestBody (T : PredictiveTable) : Nat :=
  T.cells.values.foldl (fun longest body => max longest body.length) 0

/-- A bound on the number of steps for words of a given length. -/
def stepBound (T : PredictiveTable) (length : Nat) : Nat :=
  let branching := T.longestBody + 2
  let depth := T.nonTerminals.size + 2
  (length + 3).pow 2 * (branching * depth * branching.pow depth + 2)

def run (T : PredictiveTable) (word : Word) : List ParseStep :=
  T.stepsFrom (T.stepBound word.length) (T.initial word)

/-- The run with one more step, or all its steps if this is the last one. -/
def advance (T : PredictiveTable) (run : ParseRun) : ParseRun ⊕ List ParseStep :=
  let action := T.action run.config
  let made := ⟨run.config, action⟩ :: run.made
  if action.isFinal then .inr made.reverse else .inl ⟨made, run.config.after action⟩

def finish (T : PredictiveTable) (run : ParseRun) : List ParseStep :=
  Id.run (repeatM (fun run => pure (T.advance run)) run)

/-- The steps that the recognizer makes on a word until it accepts or rejects; if it never does,
this does not return. -/
def runToEnd (T : PredictiveTable) (word : Word) : List ParseStep := T.finish ⟨[], T.initial word⟩

def accepted (steps : List ParseStep) : Bool :=
  decide (steps.getLast?.map ParseStep.action = some .accept)

def accepts (T : PredictiveTable) (word : Word) : Bool := accepted (T.run word)

end PredictiveTable

def Grammar.recognize (G : Grammar) (word : Word) : Except Error (List ParseStep) := do
  let table ← G.predictiveTable
  return table.run word

/-- The steps of the recognizer for a grammar on a word until it accepts or rejects. -/
def Grammar.recognizeToEnd (G : Grammar) (word : Word) : Except Error (List ParseStep) := do
  let table ← G.predictiveTable
  return table.runToEnd word

end LanguageTheory

import LanguageTheory.Automaton.Basic
import LanguageTheory.Grammar.Classification
import LanguageTheory.Regex.Compilation
import LanguageTheory.Regex.Reader

/-!
Stored machines, grammars and regular expressions. A record repeats facts that its contents
determine: whether a machine is deterministic, the rank of a grammar, the kind of the record.
Reading refuses a record whose repeated facts are wrong, and writing makes them right. A grammar's
empty body is written as the one symbol `ε`. The text of an expression must be readable; its
definitions are carried along and not looked at.
-/

set_option autoImplicit false
set_option relaxedAutoImplicit false

namespace LanguageTheory

structure StateRecord where
  id : String
  isEntry : Bool
  isExit : Bool
  deriving DecidableEq

structure TransitionRecord where
  source : String
  label : Symbol
  target : String
  push : Option Symbol
  pop : Option Symbol
  deriving DecidableEq

structure MachineRecord where
  id : String
  name : String
  kind : MachineKind
  deterministic : Bool
  states : List StateRecord
  entryAlphabet : List Symbol
  memoryAlphabet : List Symbol
  transitions : List TransitionRecord
  deriving DecidableEq

def StateRecord.toState (record : StateRecord) : State :=
  ⟨record.id, ⟨record.isEntry, record.isExit⟩⟩

def State.toRecord (s : State) : StateRecord := ⟨s.name, s.role.isEntry, s.role.isExit⟩

@[simp] theorem State.toState_toRecord (s : State) : s.toRecord.toState = s := rfl

@[simp] theorem StateRecord.toRecord_toState (record : StateRecord) :
    record.toState.toRecord = record := rfl

def TransitionRecord.toTransition (record : TransitionRecord) : Transition :=
  ⟨record.source, record.label, record.target, record.push, record.pop⟩

def Transition.toRecord (t : Transition) : TransitionRecord :=
  ⟨t.source, t.label, t.target, t.push, t.pop⟩

@[simp] theorem Transition.toTransition_toRecord (t : Transition) :
    t.toRecord.toTransition = t := rfl

@[simp] theorem TransitionRecord.toRecord_toTransition (record : TransitionRecord) :
    record.toTransition.toRecord = record := rfl

namespace MachineRecord

def flagText (flag : Bool) : String := if flag then "true" else "false"

def toAutomaton (record : MachineRecord) : Except Error Automaton :=
  if record.kind ≠ .finiteState then .error (.unsupportedMachine record.kind)
  else
    match Automaton.ofParts (record.states.map StateRecord.toState)
        (OrderedSet.ofList record.entryAlphabet)
        (record.transitions.map TransitionRecord.toTransition) with
    | .error e => .error e
    | .ok A =>
      if decide A.Deterministic ≠ record.deterministic then
        .error (.recordMismatch .deterministic (flagText record.deterministic)
          (flagText (decide A.Deterministic)))
      else if record.memoryAlphabet ≠ [] then
        .error (.recordMismatch .memoryAlphabet (String.intercalate "," record.memoryAlphabet) "")
      else .ok A

end MachineRecord

def Automaton.toRecord (A : Automaton) (id name : String) : MachineRecord where
  id := id
  name := name
  kind := .finiteState
  deterministic := decide A.Deterministic
  states := A.states.entries.map fun e => (State.mk e.1 e.2).toRecord
  entryAlphabet := A.alphabet.toList
  memoryAlphabet := []
  transitions := A.transitions.toList.map Transition.toRecord

structure RuleRecord where
  head : Word
  bodies : List Word
  deriving DecidableEq

structure GrammarRecord where
  id : String
  name : String
  rank : GrammarRank
  start : Symbol
  terminals : List Symbol
  nonTerminals : List Symbol
  rules : List RuleRecord
  deriving DecidableEq

namespace GrammarRecord

def toGrammar (record : GrammarRecord) : Except Error Grammar :=
  match Grammar.ofProductions (OrderedSet.ofList record.nonTerminals)
      (OrderedSet.ofList record.terminals) record.start
      (record.rules.flatMap fun rule => rule.bodies.map fun body => ⟨rule.head, body⟩) with
  | .error e => .error e
  | .ok G =>
    if G.rank ≠ record.rank then
      .error (.recordMismatch .kind record.rank.text G.rank.text)
    else .ok G

/-- A body as records write it. -/
def storedBody (body : Word) : Word := if body.isEmpty then [Symbol.epsilon] else body

end GrammarRecord

def Grammar.toRecord (G : Grammar) (id name : String) : GrammarRecord where
  id := id
  name := name
  rank := G.rank
  start := G.start
  terminals := G.terminals.toList
  nonTerminals := G.nonTerminals.toList
  rules := G.rules.entries.map fun e => ⟨e.1, e.2.toList.map GrammarRecord.storedBody⟩

/-- A named text that an expression may refer to. -/
structure Definition where
  name : String
  expression : String
  deriving DecidableEq

/-- A regular expression with its name, in the form in which it was written. -/
structure NamedExpression where
  id : String
  name : String
  expression : String
  definitions : List Definition
  globalDefinitions : List String
  deriving DecidableEq

structure DefinitionRecord where
  name : String
  expression : String
  deriving DecidableEq

structure ExpressionRecord where
  id : String
  name : String
  kind : String
  expression : String
  definitions : List DefinitionRecord
  globalDefinitions : List String
  deriving DecidableEq

def DefinitionRecord.toDefinition (record : DefinitionRecord) : Definition :=
  ⟨record.name, record.expression⟩

def Definition.toRecord (d : Definition) : DefinitionRecord := ⟨d.name, d.expression⟩

@[simp] theorem DefinitionRecord.toRecord_toDefinition (record : DefinitionRecord) :
    record.toDefinition.toRecord = record := rfl

namespace ExpressionRecord

/-- The word by which records name their kind. -/
def regularKind : String := "REGULAR_EXPRESSION"

/-- The expression that a record describes, if it is of the right kind and can be read. -/
def toExpression (record : ExpressionRecord) : Except Error NamedExpression :=
  if record.kind ≠ regularKind then
    .error (.recordMismatch .kind record.kind regularKind)
  else
    match Regex.parse record.expression with
    | .error e => .error e
    | .ok _ => .ok {
        id := record.id
        name := record.name
        expression := record.expression
        definitions := record.definitions.map DefinitionRecord.toDefinition
        globalDefinitions := record.globalDefinitions }

end ExpressionRecord

namespace NamedExpression

def toRecord (e : NamedExpression) : ExpressionRecord where
  id := e.id
  name := e.name
  kind := ExpressionRecord.regularKind
  expression := e.expression
  definitions := e.definitions.map Definition.toRecord
  globalDefinitions := e.globalDefinitions

def regex (e : NamedExpression) : Except Error Regex := Regex.parse e.expression

def automaton (e : NamedExpression) : Except Error Automaton := e.regex.map Regex.automaton

end NamedExpression

end LanguageTheory

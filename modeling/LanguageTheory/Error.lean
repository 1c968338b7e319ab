import LanguageTheory.Symbol

/-!
What can go wrong: each error is a cause with the values that identify it, and `Error.message` is
the only place that puts causes into words. The ranks of grammars and the kinds of stored machines
stand here because errors name them.
-/

set_option autoImplicit false
set_option relaxedAutoImplicit false

namespace LanguageTheory

inductive GrammarRank where
  | regular
  | contextFree
  | contextSensitive
  | unrestricted
  deriving DecidableEq

namespace GrammarRank

def text : GrammarRank → String
  | regular => "REGULAR"
  | contextFree => "CONTEXT_FREE"
  | contextSensitive => "CONTEXT_SENSITIVE"
  | unrestricted => "UNRESTRICTED"

def ofText? (text : String) : Option GrammarRank :=
  [regular, contextFree, contextSensitive, unrestricted].find? fun rank => rank.text = text

theorem ofText?_text (rank : GrammarRank) : ofText? rank.text = some rank := by
  cases rank <;> decide

end GrammarRank

/-- A kind of stored machine; only finite state machines can be read as automata. -/
inductive MachineKind where
  | finiteState
  | pushdown
  | turing
  deriving DecidableEq

namespace MachineKind

def text : MachineKind → String
  | finiteState => "FINITE_STATE_MACHINE"
  | pushdown => "PUSHDOWN_AUTOMATON"
  | turing => "TURING_MACHINE"

def ofText? (text : String) : Option MachineKind :=
  [finiteState, pushdown, turing].find? fun kind => kind.text = text

theorem ofText?_text (kind : MachineKind) : ofText? kind.text = some kind := by
  cases kind <;> decide

end MachineKind

/-- The operations that ask something of the automaton or grammar they are given. -/
inductive Operation where
  | equivalentClasses
  | minimize
  | intersect
  | complement
  | machineToGrammar
  | grammarToMachine
  | firsts
  | removeDirectLeftProduction
  | removeLeftProduction
  | directFactorization
  | indirectFactorization
  | factorize
  | removeEpsilonProductions
  | removeUnitProductions
  | removeImproductiveSymbols
  | removeUnreachableSymbols
  deriving DecidableEq

def Operation.text : Operation → String
  | equivalentClasses => "equivalent_classes"
  | minimize => "minimize"
  | intersect => "intersect"
  | complement => "complement"
  | machineToGrammar => "machine_to_grammar"
  | grammarToMachine => "grammar_to_machine"
  | firsts => "firsts"
  | removeDirectLeftProduction => "remove_direct_left_production"
  | removeLeftProduction => "remove_left_production"
  | directFactorization => "direct_factorization"
  | indirectFactorization => "indirect_factorization"
  | factorize => "factorize"
  | removeEpsilonProductions => "remove_epsilon_productions"
  | removeUnitProductions => "remove_unit_productions"
  | removeImproductiveSymbols => "remove_improductive_symbols"
  | removeUnreachableSymbols => "remove_unreachable_symbols"

/-- The fields of a record that repeat what its contents already say. -/
inductive RecordField where
  | kind
  | deterministic
  | memoryAlphabet
  deriving DecidableEq

def RecordField.text : RecordField → String
  | kind => "type"
  | deterministic => "deterministic"
  | memoryAlphabet => "memoryAlphabet"

/-- What is wrong with the text of a regular expression at the place where reading stops. -/
inductive RegexFault where
  | noLeftOperand
  | noRightOperand
  | noOperand
  | unclosedGroup
  | unopenedGroup
  deriving DecidableEq

def RegexFault.text : RegexFault → String
  | noLeftOperand => "concatenation has no left operand"
  | noRightOperand => "concatenation has no right operand"
  | noOperand => "operator has no operand"
  | unclosedGroup => "missing ')'"
  | unopenedGroup => "unmatched ')'"

/-- What is wrong with a line of the text of a grammar, or with the whole text. -/
inductive GrammarFault where
  | noArrow
  | emptyAlternative
  | noHead
  | noProductions
  | noNonTerminal
  deriving DecidableEq

def GrammarFault.text : GrammarFault → String
  | noArrow => "expected `->`"
  | emptyAlternative => "empty alternative (write ε for the empty string)"
  | noHead => "production has no head"
  | noProductions => "grammar has no productions"
  | noNonTerminal => "grammar has no non-terminal"

/-- The causes for which an operation refuses its input. -/
inductive Error where
  | wrongRank (operation : Operation) (expected found : GrammarRank)
  | notDeterministic (operation : Operation)
  | unsupportedMachine (kind : MachineKind)
  | missingEntry
  | multipleEntries (first second : StateName)
  | duplicateState (name : StateName)
  | unknownState (name : StateName)
  | unknownSymbol (symbol : Symbol)
  | stateCollision (name : StateName)
  | startNotNonTerminal (symbol : Symbol)
  | undeclaredSymbol (symbol : Symbol)
  | emptyHead
  | reservedSymbol (symbol : Symbol)
  | recordMismatch (field : RecordField) (stored actual : String)
  | tableConflict (nonTerminal lookahead : Symbol) (existing conflicting : Word)
  | regexSyntax (position : Nat) (fault : RegexFault)
  | grammarSyntax (line : Nat) (fault : GrammarFault)
  deriving DecidableEq

def Error.message : Error → String
  | wrongRank operation expected found =>
    operation.text ++ " requires a " ++ expected.text ++ " grammar, but this grammar is "
      ++ found.text
  | notDeterministic operation =>
    operation.text ++ " requires a deterministic automaton without epsilon transitions"
  | unsupportedMachine kind =>
    "cannot treat a " ++ kind.text ++ " record as a finite state machine"
  | missingEntry => "the automaton has no entry state"
  | multipleEntries first second =>
    "the automaton has more than one entry state (`" ++ first ++ "` and `" ++ second ++ "`)"
  | duplicateState name => "state `" ++ name ++ "` is defined more than once"
  | unknownState name => "a transition refers to the unknown state `" ++ name ++ "`"
  | unknownSymbol symbol =>
    "symbol `" ++ symbol ++ "` is used by a transition but is not in the alphabet"
  | stateCollision name => "state `" ++ name ++ "` exists in both automata"
  | startNotNonTerminal symbol => "start symbol `" ++ symbol ++ "` is not a non-terminal"
  | undeclaredSymbol symbol => "symbol `" ++ symbol ++ "` is neither a terminal nor a non-terminal"
  | emptyHead => "a production has an empty head"
  | reservedSymbol symbol => "`" ++ symbol ++ "` is reserved and can't be used as a terminal"
  | recordMismatch field stored actual =>
    "record field `" ++ field.text ++ "` is `" ++ stored ++ "`, but the record describes `"
      ++ actual ++ "`"
  | tableConflict nonTerminal lookahead existing conflicting =>
    "LL(1) conflict at (" ++ nonTerminal ++ ", " ++ lookahead ++ "): `" ++ existing.text
      ++ "` and `" ++ conflicting.text ++ "`"
  | regexSyntax position fault =>
    "invalid regular expression at position " ++ toString position ++ ": " ++ fault.text
  | grammarSyntax line fault =>
    "invalid grammar on line " ++ toString line ++ ": " ++ fault.text

end LanguageTheory

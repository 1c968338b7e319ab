import LanguageTheory.Collection.OrderedTable
import LanguageTheory.Error

/-!
Formal grammars: each rule replaces a head, which is a non-empty word, by one of several bodies.
`Grammar.ofProductions` checks the parts and gives the first fault it meets. The operations on
context-free grammars work on a `RuleTable`, where every head is a single symbol. The text of a
grammar has a line for each head with its bodies.
-/

set_option autoImplicit false
set_option relaxedAutoImplicit false

namespace LanguageTheory

abbrev Rules := OrderedTable Word (OrderedSet Word)

/-- The bodies of each head, where heads are single symbols. -/
abbrev RuleTable := OrderedTable Symbol (OrderedSet Word)

structure Production where
  head : Word
  body : Word
  deriving DecidableEq

structure Grammar where
  nonTerminals : Alphabet
  terminals : Alphabet
  start : Symbol
  rules : Rules
  deriving DecidableEq

namespace Rules

def bodies (rules : Rules) (head : Word) : OrderedSet Word := (rules.get? head).getD .empty

def add (rules : Rules) (p : Production) : Rules :=
  rules.insert p.head ((rules.bodies p.head).insert p.body)

def productions (rules : Rules) : List Production :=
  rules.entries.flatMap fun e => e.2.toList.map fun body => ⟨e.1, body⟩

end Rules

namespace RuleTable

def bodies (table : RuleTable) (head : Symbol) : List Word :=
  ((table.get? head).map OrderedSet.toList).getD []

def productions (table : RuleTable) : List (Symbol × Word) :=
  table.entries.flatMap fun e => e.2.toList.map fun body => (e.1, body)

end RuleTable

namespace Grammar

/-- The body without the symbol `ε`, which stands for nothing. -/
def withoutEpsilon (body : Word) : Word :=
  body.filter fun symbol => decide (symbol ≠ Symbol.epsilon)

def productionFault? (nonTerminals terminals : Alphabet) (p : Production) : Option Error :=
  if p.head.isEmpty then some .emptyHead
  else
    ((p.head ++ withoutEpsilon p.body).find? fun symbol =>
      decide (symbol ∉ nonTerminals ∧ symbol ∉ terminals)).map .undeclaredSymbol

/-- The grammar with the given parts, if they fit together. Bodies of one head are merged. -/
def ofProductions (nonTerminals terminals : Alphabet) (start : Symbol)
    (productions : List Production) : Except Error Grammar :=
  if start ∉ nonTerminals then .error (.startNotNonTerminal start)
  else
    match productions.findSome? (productionFault? nonTerminals terminals) with
    | some e => .error e
    | none =>
      let rules := productions.foldl
        (fun rules p => Rules.add rules { p with body := withoutEpsilon p.body }) .empty
      .ok ⟨nonTerminals, terminals, start, rules⟩

/-- The grammar with a table of rules. Heads become non-terminals; heads without bodies are left
out of the rules. -/
def ofTable (nonTerminals terminals : Alphabet) (start : Symbol) (table : RuleTable) :
    Grammar where
  nonTerminals := nonTerminals.insertMany table.keys
  terminals := terminals
  start := start
  rules := OrderedTable.ofList
    ((table.entries.filter fun e => !e.2.toList.isEmpty).map fun e => ([e.1], e.2))

/-- The rules whose heads are single symbols. -/
def table (G : Grammar) : RuleTable :=
  OrderedTable.ofList (G.rules.entries.filterMap fun e =>
    match e.1 with
    | [head] => some (head, e.2)
    | _ => none)

def withTable (G : Grammar) (table : RuleTable) : Grammar :=
  ofTable G.nonTerminals G.terminals G.start table

def symbols (G : Grammar) : List Symbol := G.nonTerminals.toList ++ G.terminals.toList

def bodiesOf? (G : Grammar) (head : Symbol) : Option (OrderedSet Word) := G.rules.get? [head]

/-- Both grammars have the same parts; the order in which the parts are listed does not matter. -/
def Same (G H : Grammar) : Prop :=
  G.nonTerminals.Same H.nonTerminals ∧ G.terminals.Same H.terminals ∧ G.start = H.start ∧
    G.rules.Same OrderedSet.Same H.rules

instance (G H : Grammar) : Decidable (G.Same H) := inferInstanceAs (Decidable (_ ∧ _))

def ruleText (head : Word) (bodies : OrderedSet Word) : String :=
  head.text ++ " -> " ++ String.intercalate " | " (bodies.toList.map Word.text) ++ "\n"

def text (G : Grammar) : String :=
  String.join (G.rules.entries.map fun e => ruleText e.1 e.2)

end Grammar

end LanguageTheory

import LanguageTheory.Collection.Iteration
import LanguageTheory.FreshName
import LanguageTheory.Grammar.Classification

/-!
Simplification of context-free grammars: empty bodies are removed except one of the start symbol,
unit bodies are replaced by what they lead to, and symbols are dropped that derive no word of
terminals or cannot be reached from the start symbol.
-/

set_option autoImplicit false
set_option relaxedAutoImplicit false

namespace LanguageTheory.Grammar

/-- Adds the heads with a body that passes a test, which may ask for the heads added before. -/
def saturationRound (table : RuleTable) (passes : OrderedSet Symbol → Word → Bool)
    (heads : OrderedSet Symbol) : OrderedSet Symbol :=
  table.entries.foldl
    (fun heads e => if e.2.toList.any (passes heads) then heads.insert e.1 else heads) heads

/-- The least set of heads that is closed under such rounds, in the order in which they are
added. -/
def saturate (table : RuleTable) (passes : OrderedSet Symbol → Word → Bool) : OrderedSet Symbol :=
  stabilize (saturationRound table passes) (table.size + 1) .empty

def nullableSymbols (G : Grammar) : OrderedSet Symbol :=
  saturate G.table fun nullable body => body.all fun symbol => decide (symbol ∈ nullable)

def productiveSymbols (G : Grammar) : OrderedSet Symbol :=
  saturate G.table fun productive body =>
    body.all fun symbol => decide (symbol ∈ G.terminals ∨ symbol ∈ productive)

/-- The ways to write a word with some of its nullable symbols left out. -/
def erasures (nullable : OrderedSet Symbol) (word : Word) : OrderedSet Word :=
  word.foldl
    (fun variants symbol => OrderedSet.ofList (variants.toList.flatMap fun variant =>
      if symbol ∈ nullable then [variant ++ [symbol], variant] else [variant ++ [symbol]]))
    (OrderedSet.ofList [[]])

/-- The rules with all erasures of the bodies but the empty ones. -/
def nonErasingTable (G : Grammar) : RuleTable :=
  let nullable := G.nullableSymbols
  G.table.mapValues fun _ bodies =>
    OrderedSet.ofList ((bodies.toList.flatMap fun body => (erasures nullable body).toList).filter
      fun body => !body.isEmpty)

/-- The grammar without empty bodies, except one of the start symbol if it derives the empty word.
If the start symbol occurs in a body then, a new one takes its place. -/
def withoutErasing (G : Grammar) : Grammar :=
  let table := G.nonErasingTable
  if G.start ∈ G.nullableSymbols then
    if ∃ p ∈ table.productions, G.start ∈ p.2 then
      let start := (SymbolPool.avoiding G.symbols).fresh.1
      ofTable ((OrderedSet.ofList [start]).union G.nonTerminals) G.terminals start
        (OrderedTable.ofList ((start, OrderedSet.ofList [[G.start], []]) :: table.entries))
    else
      ofTable ((OrderedSet.ofList [G.start]).union G.nonTerminals) G.terminals G.start
        (table.insert G.start (((table.get? G.start).getD .empty).insert []))
  else
    ofTable ((OrderedSet.ofList [G.start]).union G.nonTerminals) G.terminals G.start table

def removeEpsilonProductions (G : Grammar) : Except Error Grammar := do
  G.requireContextFree .removeEpsilonProductions
  return G.withoutErasing

/-- The non-terminal that a body is, if it is just one. -/
def unit? (G : Grammar) : Word → Option Symbol
  | [symbol] => if symbol ∈ G.nonTerminals then some symbol else none
  | _ => none

/-- The non-terminals that unit bodies lead to, the given one first. -/
def unitClosure (G : Grammar) (head : Symbol) : List Symbol :=
  let table := G.table
  Discovery.reached id (fun symbol => (table.bodies symbol).filterMap G.unit?)
    (G.nonTerminals.size + 1) [head]

/-- The grammar in which every head has the other bodies of all that its unit bodies lead to. -/
def withoutUnits (G : Grammar) : Grammar :=
  let table := G.table
  G.withTable (table.mapValues fun head _ =>
    OrderedSet.ofList (((G.unitClosure head).flatMap table.bodies).filter fun body =>
      (G.unit? body).isNone))

def removeUnitProductions (G : Grammar) : Except Error Grammar := do
  G.requireContextFree .removeUnitProductions
  return G.withoutUnits

/-- The grammar with only those non-terminals and bodies that derive words of terminals; the start
symbol stays. -/
def withoutImproductive (G : Grammar) : Grammar :=
  let productive := G.productiveSymbols
  let table := (G.table.filter fun head _ => decide (head ∈ productive)).mapValues fun _ bodies =>
    bodies.filter fun body =>
      body.all fun symbol => decide (symbol ∈ G.terminals ∨ symbol ∈ productive)
  ofTable (G.nonTerminals.filter fun symbol => decide (symbol ∈ productive ∨ symbol = G.start))
    G.terminals G.start table

def removeImproductiveSymbols (G : Grammar) : Except Error Grammar := do
  G.requireContextFree .removeImproductiveSymbols
  return G.withoutImproductive

/-- The symbols that occur in what the start symbol derives, in order of discovery. -/
def reachableSymbols (G : Grammar) : List Symbol :=
  let table := G.table
  Discovery.reached id (fun symbol => (table.bodies symbol).flatten) (G.symbols.length + 1)
    [G.start]

def withoutUnreachable (G : Grammar) : Grammar :=
  let reachable := G.reachableSymbols
  let isReachable (symbol : Symbol) : Bool := decide (symbol ∈ reachable)
  ofTable (G.nonTerminals.filter isReachable) (G.terminals.filter isReachable) G.start
    (G.table.filter fun head _ => isReachable head)

def removeUnreachableSymbols (G : Grammar) : Except Error Grammar := do
  G.requireContextFree .removeUnreachableSymbols
  return G.withoutUnreachable

/-- Removes symbols that derive nothing and then those that cannot be reached any more. -/
def removeUselessSymbols (G : Grammar) : Except Error Grammar := do
  let productive ← G.removeImproductiveSymbols
  productive.removeUnreachableSymbols

end LanguageTheory.Grammar

import LanguageTheory.Collection.Iteration
import LanguageTheory.Grammar.Classification

/-!
FIRST and FOLLOW of context-free grammars. FIRST of a non-terminal holds the terminals with which
the words derived from it can begin, and `ε` if it derives the empty word. FOLLOW holds the
terminals that can come right after it, and `$` if it can stand at the end. Both are the least sets
that are closed under the rules; they are found by going over the rules until nothing is added.
-/

set_option autoImplicit false
set_option relaxedAutoImplicit false

namespace LanguageTheory

/-- A set of symbols for each of some symbols. -/
abbrev SymbolSets := OrderedTable Symbol (SortedSet Symbol)

namespace SymbolSets

def of (sets : SymbolSets) (symbol : Symbol) : SortedSet Symbol := (sets.get? symbol).getD .empty

def extend (sets : SymbolSets) (symbol : Symbol) (members : SortedSet Symbol) : SymbolSets :=
  match sets.get? symbol with
  | none => sets
  | some known => sets.insert symbol (known.union members)

end SymbolSets

namespace Grammar

def visible (members : SortedSet Symbol) : SortedSet Symbol :=
  members.filter fun symbol => decide (symbol ≠ Symbol.epsilon)

/-- FIRST of a word, where the sets of the non-terminals are given. It holds `ε` if every symbol of
the word can vanish; a symbol that is not a non-terminal with a set stands for itself. -/
def firstOfWord (G : Grammar) (firsts : SymbolSets) : Word → SortedSet Symbol
  | [] => .singleton Symbol.epsilon
  | symbol :: rest =>
    match firsts.get? symbol with
    | none => .singleton symbol
    | some first =>
      if symbol ∈ G.nonTerminals then
        if Symbol.epsilon ∈ first then (visible first).union (G.firstOfWord firsts rest)
        else first
      else .singleton symbol

def emptySets (G : Grammar) : SymbolSets :=
  OrderedTable.ofList (G.nonTerminals.toList.map fun symbol => (symbol, .empty))

/-- A bound on the number of symbols that can be added to the sets of all non-terminals. -/
def setCapacity (G : Grammar) : Nat := G.nonTerminals.size * (G.symbols.length + 2) + 1

def firstRound (G : Grammar) (firsts : SymbolSets) : SymbolSets :=
  G.table.productions.foldl
    (fun firsts p => firsts.extend p.1 (G.firstOfWord firsts p.2)) firsts

def firstSets (G : Grammar) : SymbolSets := stabilize G.firstRound G.setCapacity G.emptySets

def firsts (G : Grammar) : Except Error SymbolSets := do
  G.requireContextFree .firsts
  return G.firstSets

/-- A non-terminal in a body, the head of the body, and FIRST of what comes after it there. -/
structure Occurrence where
  symbol : Symbol
  head : Symbol
  first : SortedSet Symbol

def occurrencesIn (G : Grammar) (firsts : SymbolSets) (head : Symbol) : Word → List Occurrence
  | [] => []
  | symbol :: rest =>
    let later := G.occurrencesIn firsts head rest
    if symbol ∈ G.nonTerminals then ⟨symbol, head, G.firstOfWord firsts rest⟩ :: later else later

/-- What FOLLOW of the symbol has to hold because of this occurrence. -/
def Occurrence.demand (o : Occurrence) (follows : SymbolSets) : SortedSet Symbol :=
  if Symbol.epsilon ∈ o.first then (visible o.first).union (follows.of o.head) else o.first

def followRound (occurrences : List Occurrence) (follows : SymbolSets) : SymbolSets :=
  occurrences.foldl (fun follows o => follows.extend o.symbol (o.demand follows)) follows

def followSets (G : Grammar) : SymbolSets :=
  let firsts := G.firstSets
  let occurrences := G.table.productions.flatMap fun p => G.occurrencesIn firsts p.1 p.2
  stabilize (followRound occurrences) G.setCapacity
    (G.emptySets.extend G.start (.singleton Symbol.endOfInput))

def follows (G : Grammar) : Except Error SymbolSets := do
  G.requireContextFree .firsts
  return G.followSets

end Grammar

end LanguageTheory

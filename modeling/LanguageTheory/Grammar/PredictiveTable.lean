import LanguageTheory.Grammar.FirstFollow

/-!
Predictive parsing with one symbol of lookahead. The table says which body to take for a
non-terminal on top of the stack and the next symbol of the input: a body claims the symbols of its
FIRST set and, if it can vanish, those of FOLLOW of its head. A grammar of which two bodies claim
one cell is refused.
-/

set_option autoImplicit false
set_option relaxedAutoImplicit false

namespace LanguageTheory

/-- A non-terminal and the symbol that comes next. -/
abbrev Cell := Symbol × Symbol

/-- Which body to take for which cell. -/
structure PredictiveTable where
  start : Symbol
  nonTerminals : Alphabet
  cells : OrderedTable Cell Word

namespace PredictiveTable

def body? (T : PredictiveTable) (nonTerminal lookahead : Symbol) : Option Word :=
  T.cells.get? (nonTerminal, lookahead)

def text (T : PredictiveTable) : String :=
  String.join (T.cells.entries.map fun e =>
    e.1.1 ++ ", " ++ e.1.2 ++ ": " ++ e.1.1 ++ " -> " ++ Word.text e.2 ++ "\n")

end PredictiveTable

namespace Grammar

/-- The symbols that a body claims for its head, those of its own FIRST set first. -/
def lookaheads (G : Grammar) (firsts follows : SymbolSets) (head : Symbol) (body : Word) :
    List Symbol :=
  let first := G.firstOfWord firsts body
  (visible first).toList ++ if Symbol.epsilon ∈ first then (follows.of head).toList else []

def claims (G : Grammar) (firsts follows : SymbolSets) : List (Cell × Word) :=
  G.table.productions.flatMap fun p =>
    (G.lookaheads firsts follows p.1 p.2).map fun lookahead => ((p.1, lookahead), p.2)

/-- Fills cells one after the other; a cell that is claimed by two bodies is refused. -/
def fillCells (cells : OrderedTable Cell Word) :
    List (Cell × Word) → Except Error (OrderedTable Cell Word)
  | [] => .ok cells
  | (cell, body) :: rest =>
    match cells.get? cell with
    | none => fillCells (cells.insert cell body) rest
    | some existing =>
      if existing = body then fillCells cells rest
      else .error (.tableConflict cell.1 cell.2 existing body)

/-- The table of a context-free grammar; the end marker must not be one of its terminals. -/
def predictiveTable (G : Grammar) : Except Error PredictiveTable :=
  if Symbol.endOfInput ∈ G.terminals then .error (.reservedSymbol Symbol.endOfInput)
  else do
    let firsts ← G.firsts
    let follows ← G.follows
    let cells ← fillCells .empty (G.claims firsts follows)
    return ⟨G.start, G.nonTerminals, cells⟩

end Grammar

end LanguageTheory

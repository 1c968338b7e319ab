import LanguageTheory.Grammar.Basic
import LanguageTheory.Text

/-!
Reading grammars. Each line that is not blank has a head, an arrow `->` or `→` and alternatives
separated by `|`. If a blank stands inside any head or alternative, all of them are split into
symbols at blanks; otherwise every character is a symbol, together with the primes behind it.

A head of one symbol names a non-terminal. In a longer head a symbol is a non-terminal if it is the
whole head of some other line, or begins with an upper-case character, or ends with a prime. All
other symbols are terminals, and the first non-terminal of a head is the start symbol.
-/

set_option autoImplicit false
set_option relaxedAutoImplicit false

namespace LanguageTheory.Grammar

/-- A line of the text: its number and the texts of its head and alternatives. -/
structure RuleLine where
  number : Nat
  head : List Char
  alternatives : List (List Char)

def cutAtArrow (line : List Char) : Option (List Char × List Char) :=
  match Text.cutAtFirst ['-', '>'] line with
  | some parts => some parts
  | none => Text.cutAtFirst ['→'] line

/-- Cuts a line, which is not blank, into its parts. -/
def readLine (number : Nat) (line : List Char) : Except Error RuleLine :=
  match cutAtArrow line with
  | none => .error (.grammarSyntax number .noArrow)
  | some (head, bodies) =>
    let alternatives := (Text.splitAt '|' bodies).map Text.trim
    if alternatives.any List.isEmpty then .error (.grammarSyntax number .emptyAlternative)
    else .ok ⟨number, Text.trim head, alternatives⟩

def readLines (number : Nat) : List (List Char) → Except Error (List RuleLine)
  | [] => .ok []
  | text :: rest =>
    let line := Text.trim text
    if line.isEmpty then readLines (number + 1) rest
    else
      match readLine number line, readLines (number + 1) rest with
      | .error e, _ => .error e
      | .ok _, .error e => .error e
      | .ok line, .ok lines => .ok (line :: lines)

def isSpaced (lines : List RuleLine) : Bool :=
  lines.any fun line => (line.head :: line.alternatives).any fun text => text.any Text.isBlank

/-- Each character with the primes behind it; `current` is the symbol that is being read. -/
def attachPrimes (current : List Char) : List Char → List (List Char)
  | [] => [current]
  | c :: rest =>
    if c = '\x27' then attachPrimes (current ++ [c]) rest else current :: attachPrimes [c] rest

def compactSymbols : List Char → List (List Char)
  | [] => []
  | c :: rest => attachPrimes [c] rest

def readWord (spaced : Bool) (text : List Char) : Word :=
  ((if spaced then Text.fields text else compactSymbols text).map String.ofList).filter
    fun symbol => decide (symbol ≠ Symbol.epsilon ∧ symbol ≠ Symbol.epsilonAlias)

/-- The productions of the lines; a line without a head is refused. -/
def lineProductions (spaced : Bool) : List RuleLine → Except Error (List Production)
  | [] => .ok []
  | line :: rest =>
    let head := readWord spaced line.head
    if head.isEmpty then .error (.grammarSyntax line.number .noHead)
    else
      (lineProductions spaced rest).map fun productions =>
        (line.alternatives.map fun text => ⟨head, readWord spaced text⟩) ++ productions

/-- Whether a symbol is written like a non-terminal: `B`, `E'`. -/
def looksLikeNonTerminal (symbol : Symbol) : Bool :=
  (match symbol.toList with
    | [] => false
    | c :: _ => Text.isUppercase c) ||
  decide (symbol.toList.getLast? = some '\x27')

def shownNonTerminals (productions : List Production) : Alphabet :=
  let heads := productions.map Production.head
  OrderedSet.ofList (heads.flatten.filter fun symbol =>
    decide ([symbol] ∈ heads) || looksLikeNonTerminal symbol)

def otherSymbols (nonTerminals : Alphabet) (productions : List Production) : Alphabet :=
  OrderedSet.ofList ((productions.flatMap fun p => p.body ++ p.head).filter fun symbol =>
    decide (symbol ∉ nonTerminals))

def ofShownProductions (productions : List Production) : Except Error Grammar :=
  if productions.isEmpty then .error (.grammarSyntax 0 .noProductions)
  else
    let nonTerminals := shownNonTerminals productions
    match nonTerminals.toList with
    | [] => .error (.grammarSyntax 0 .noNonTerminal)
    | start :: _ =>
      ofProductions nonTerminals (otherSymbols nonTerminals productions) start productions

def parse (text : String) : Except Error Grammar :=
  match readLines 1 (Text.splitAt '\n' text.toList) with
  | .error e => .error e
  | .ok lines =>
    match lineProductions (isSpaced lines) lines with
    | .error e => .error e
    | .ok productions => ofShownProductions productions

end LanguageTheory.Grammar

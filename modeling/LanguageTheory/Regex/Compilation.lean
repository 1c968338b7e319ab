import LanguageTheory.Automaton.Determinization
import LanguageTheory.Regex.Basic

/-!
Positions in regular expressions, and the automata they give. The literals of an expression are
numbered from left to right, starting at 1, and an end marker after the expression gets the next
number. For every subexpression `nullable`, `first` and `last` tell whether it matches the empty
word and which positions its matches begin and end with; `follow` tells which positions come right
after which.

A state of the automaton is the set of positions that can come next; reading a symbol leads to
whatever follows those of them that hold the symbol. A state accepts if the end marker can come
next.
-/

set_option autoImplicit false
set_option relaxedAutoImplicit false

namespace LanguageTheory

/-- The number of a literal or of the end marker. -/
abbrev Position := Nat

abbrev PositionSet := SortedSet Position

/-- A regular expression with numbered literals, possibly followed by an end marker. -/
inductive PositionTree where
  | epsilon
  | leaf (symbol : Symbol) (position : Position)
  | marker (position : Position)
  | concat (first second : PositionTree)
  | union (first second : PositionTree)
  | star (inner : PositionTree)
  deriving DecidableEq

namespace Regex

def width : Regex → Nat
  | epsilon => 0
  | literal _ => 1
  | concat first second => first.width + second.width
  | union first second => first.width + second.width
  | star inner => inner.width

/-- The expression with its literals numbered from left to right from a given number on. -/
def numbered (start : Position) : Regex → PositionTree
  | epsilon => .epsilon
  | literal symbol => .leaf symbol start
  | concat first second => .concat (first.numbered start) (second.numbered (start + first.width))
  | union first second => .union (first.numbered start) (second.numbered (start + first.width))
  | star inner => .star (inner.numbered start)

def endMarker (r : Regex) : Position := r.width + 1

/-- The numbered expression with the end marker behind it. -/
def marked (r : Regex) : PositionTree := .concat (r.numbered 1) (.marker r.endMarker)

end Regex

namespace PositionTree

def nullable : PositionTree → Bool
  | epsilon => true
  | leaf _ _ => false
  | marker _ => false
  | concat first second => first.nullable && second.nullable
  | union first second => first.nullable || second.nullable
  | star _ => true

/-- The positions with which matches begin. -/
def first : PositionTree → PositionSet
  | epsilon => .empty
  | leaf _ position => .singleton position
  | marker position => .singleton position
  | concat t u => if t.nullable then t.first.union u.first else t.first
  | union t u => t.first.union u.first
  | star t => t.first

/-- The positions with which matches end. -/
def last : PositionTree → PositionSet
  | epsilon => .empty
  | leaf _ position => .singleton position
  | marker position => .singleton position
  | concat t u => if u.nullable then t.last.union u.last else u.last
  | union t u => t.last.union u.last
  | star t => t.last

/-- The positions that come right after a position in some match. -/
def follow (p : Position) : PositionTree → PositionSet
  | epsilon => .empty
  | leaf _ _ => .empty
  | marker _ => .empty
  | concat t u =>
    let within := (t.follow p).union (u.follow p)
    if p ∈ t.last then within.union u.first else within
  | union t u => (t.follow p).union (u.follow p)
  | star t => if p ∈ t.last then (t.follow p).union t.first else t.follow p

def leaves : PositionTree → List (Position × Symbol)
  | epsilon => []
  | leaf symbol position => [(position, symbol)]
  | marker _ => []
  | concat t u => t.leaves ++ u.leaves
  | union t u => t.leaves ++ u.leaves
  | star t => t.leaves

/-- The symbol of the literal at a position; the end marker has none. -/
def symbolAt? (t : PositionTree) (p : Position) : Option Symbol :=
  (t.leaves.find? fun leaf => decide (leaf.1 = p)).map Prod.snd

def size : PositionTree → Nat
  | epsilon => 1
  | leaf _ _ => 1
  | marker _ => 1
  | concat t u => t.size + u.size + 1
  | union t u => t.size + u.size + 1
  | star t => t.size + 1

/-- The subtrees with their indices, children before parents; the first index is `start`. -/
def nodes (start : Nat) : PositionTree → List (Nat × PositionTree)
  | concat t u =>
    t.nodes start ++ u.nodes (start + t.size) ++ [(start + t.size + u.size, .concat t u)]
  | union t u =>
    t.nodes start ++ u.nodes (start + t.size) ++ [(start + t.size + u.size, .union t u)]
  | star t => t.nodes start ++ [(start + t.size, .star t)]
  | t => [(start, t)]

/-- The index of a child of the node at `index`, where `behind` counts the nodes listed between
the child and the node. -/
def childIndex (index behind : Nat) : Nat := index - 1 - behind

def children (index : Nat) : PositionTree → List Nat
  | concat _ u => [childIndex index u.size, childIndex index 0]
  | union _ u => [childIndex index u.size, childIndex index 0]
  | star _ => [childIndex index 0]
  | _ => []

end PositionTree

def PositionSet.name (positions : PositionSet) : StateName :=
  String.intercalate "," (positions.toList.map fun p => toString p)

/-- A numbered literal with the positions that can follow it. -/
structure Link where
  position : Position
  symbol : Symbol
  next : PositionSet

def PositionTree.links (t : PositionTree) : List Link :=
  t.leaves.map fun leaf => ⟨leaf.1, leaf.2, t.follow leaf.1⟩

/-- What can come next after a symbol is read at one of some positions. -/
def Link.advance (links : List Link) (positions : PositionSet) (symbol : Symbol) : PositionSet :=
  SortedSet.ofList
    ((links.filter fun link => decide (link.position ∈ positions ∧ link.symbol = symbol)).flatMap
      fun link => link.next.toList)

namespace Regex

/-- The machine whose configurations are the non-empty sets of positions that can come next. -/
def positionSystem (r : Regex) (alphabet : Alphabet) : MoveSystem PositionSet :=
  let links := r.marked.links
  { alphabet
    start := r.marked.first
    move := fun positions symbol =>
      let moved := Link.advance links positions symbol
      if moved.isEmpty then none else some moved
    isAccepting := fun positions => decide (r.endMarker ∈ positions)
    name := PositionSet.name }

/-- A deterministic automaton over an alphabet for the words that the expression matches. -/
def automatonOver (r : Regex) (alphabet : Alphabet) : Automaton :=
  (r.positionSystem alphabet).automaton (Nat.pow 2 (r.width + 1) + 1)

def automaton (r : Regex) : Automaton := r.automatonOver r.alphabet

end Regex

end LanguageTheory

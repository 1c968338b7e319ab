import LanguageTheory.FreshName
import LanguageTheory.Grammar.Classification

/-!
Left factoring. Bodies of one head that begin with the same symbol are joined: what they have in
common stays, and a new non-terminal stands for the choice among the rests. Indirect factoring first
expands the bodies that begin alike only after their leading non-terminals are derived.
-/

set_option autoImplicit false
set_option relaxedAutoImplicit false

namespace LanguageTheory.Grammar

def commonStart : Word → Word → Word
  | a :: u, b :: v => if a = b then a :: commonStart u v else []
  | _, _ => []

def commonStartOfAll : List Word → Word
  | [] => []
  | word :: words => words.foldl commonStart word

/-- The bodies of a head after factoring, and the new heads with their bodies. -/
structure Factored where
  bodies : OrderedSet Word
  introduced : List (Symbol × OrderedSet Word)
  pool : SymbolPool

/-- Factors `pending`, which is what is left of `bodies`. The first body of a group with one first
symbol stands for the group; `treated` are the first symbols of the groups met so far. -/
def factorBodies (bodies : List Word) (treated : List Symbol) (state : Factored) :
    List Word → Factored
  | [] => state
  | [] :: pending =>
    factorBodies bodies treated { state with bodies := state.bodies.insert [] } pending
  | (symbol :: rest) :: pending =>
    let group := bodies.filter fun body => decide (body.head? = some symbol)
    if group.length < 2 then
      factorBodies bodies treated
        { state with bodies := state.bodies.insert (symbol :: rest) } pending
    else if symbol ∈ treated then factorBodies bodies treated state pending
    else
      let common := commonStartOfAll group
      let (fresh, pool) := state.pool.fresh
      let rests := OrderedSet.ofList (group.map fun body => body.drop common.length)
      factorBodies bodies (symbol :: treated)
        ⟨state.bodies.insert (common ++ [fresh]), state.introduced ++ [(fresh, rests)], pool⟩
          pending

/-- Factors the bodies of each head; the new heads of a head come right behind it. -/
def factorEntries (pool : SymbolPool) :
    List (Symbol × OrderedSet Word) → List (Symbol × OrderedSet Word)
  | [] => []
  | (head, bodies) :: rest =>
    let factored := factorBodies bodies.toList [] ⟨.empty, [], pool⟩ bodies.toList
    (head, factored.bodies) :: (factored.introduced ++ factorEntries factored.pool rest)

/-- The grammar in which no two bodies of one of its heads begin with the same symbol. -/
def factorDirectly (G : Grammar) : Grammar :=
  G.withTable (OrderedTable.ofList (factorEntries (.avoiding G.symbols) G.table.entries))

def directFactorization (G : Grammar) : Except Error Grammar := do
  G.requireContextFree .directFactorization
  return G.factorDirectly

/-- The words that come from deriving leading non-terminals until a terminal leads. A non-terminal
that is being derived is left in place; `depth` bounds the number of those that can still be. -/
def expandLeading (G : Grammar) : Nat → List Symbol → Word → List Word
  | 0, _, word => [word]
  | _, _, [] => [[]]
  | depth + 1, underway, symbol :: rest =>
    if symbol ∈ G.nonTerminals ∧ symbol ∉ underway then
      (((G.bodiesOf? symbol).map OrderedSet.toList).getD []).flatMap fun body =>
        G.expandLeading depth (symbol :: underway) (body ++ rest)
    else [symbol :: rest]

def leadingExpansions (G : Grammar) (word : Word) : OrderedSet Word :=
  OrderedSet.ofList (G.expandLeading G.nonTerminals.size [] word)

/-- The symbols with which the expansions of a word begin. -/
def leads (G : Grammar) (word : Word) : Alphabet :=
  OrderedSet.ofList ((G.expandLeading G.nonTerminals.size [] word).filterMap List.head?)

/-- Some expansions of both words begin with the same symbol. -/
def LeadsClash (G : Grammar) (u v : Word) : Prop :=
  ∃ symbol ∈ (G.leads u).toList, symbol ∈ G.leads v

instance (G : Grammar) (u v : Word) : Decidable (G.LeadsClash u v) :=
  inferInstanceAs (Decidable (∃ symbol ∈ (G.leads u).toList, symbol ∈ G.leads v))

def startsWithNonTerminal (G : Grammar) : Word → Bool
  | [] => false
  | symbol :: _ => decide (symbol ∈ G.nonTerminals)

/-- The bodies with those replaced by their expansions that begin with a non-terminal and clash
with another body. -/
def exposeBodies (G : Grammar) (bodies : OrderedSet Word) : OrderedSet Word :=
  OrderedSet.ofList (bodies.toList.flatMap fun body =>
    if G.startsWithNonTerminal body = true ∧
        (∃ other ∈ bodies.toList, other ≠ body ∧ G.LeadsClash body other) then
      (G.leadingExpansions body).toList
    else [body])

def exposed (G : Grammar) : Grammar :=
  G.withTable (G.table.mapValues fun _ bodies => G.exposeBodies bodies)

/-- Expands bodies whose leading non-terminals hide a common beginning, then factors. -/
def indirectFactorization (G : Grammar) : Except Error Grammar := do
  G.requireContextFree .indirectFactorization
  G.exposed.directFactorization

def defaultFactorizationRounds : Nat := 5

def factorRounds : Nat → Grammar → Except Error Grammar
  | 0, G => return G
  | rounds + 1, G => do
    let next ← (← G.directFactorization).indirectFactorization
    if next.Same G then return G else factorRounds rounds next

/-- Alternates both kinds of factoring for at most a number of rounds. -/
def factorize (G : Grammar) (rounds : Nat) : Except Error Grammar := do
  G.requireContextFree .factorize
  factorRounds rounds G

end LanguageTheory.Grammar

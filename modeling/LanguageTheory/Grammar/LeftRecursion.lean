import LanguageTheory.FreshName
import LanguageTheory.Grammar.Classification

/-!
Removing left recursion. The rules `A → A α | β` become `A → β X` and `X → α X | ε` with a new
non-terminal `X`. For recursion through several non-terminals, these are put in order, and a body
that begins with an earlier one is replaced by what that one's bodies make of it; then only direct
recursion is left.
-/

set_option autoImplicit false
set_option relaxedAutoImplicit false

namespace LanguageTheory.Grammar

/-- The rules of one head with its direct left recursion moved into a new non-terminal, and the
pool from which that was taken. A body `A` of `A` is dropped. -/
def removeDirectRecursion (state : RuleTable × SymbolPool) (head : Symbol) :
    RuleTable × SymbolPool :=
  let (table, pool) := state
  let bodies := table.bodies head
  let recursive := bodies.filter fun body => decide (body.head? = some head)
  let others := bodies.filter fun body => decide (body.head? ≠ some head)
  if recursive.isEmpty then state
  else
    let (fresh, pool) := pool.fresh
    let tails := (recursive.map List.tail).filter fun tail => !tail.isEmpty
    let headBodies := OrderedSet.ofList (others.map fun body => body ++ [fresh])
    let freshBodies := OrderedSet.ofList ((tails.map fun tail => tail ++ [fresh]) ++ [[]])
    ((table.insert head headBodies).insert fresh freshBodies, pool)

def withoutDirectRecursion (G : Grammar) (heads : List Symbol) : Grammar :=
  G.withTable (heads.foldl removeDirectRecursion (G.table, .avoiding G.symbols)).1

def removeDirectLeftProduction (G : Grammar) (head : Option Symbol) : Except Error Grammar := do
  G.requireContextFree .removeDirectLeftProduction
  match head with
  | some head => return G.withoutDirectRecursion [head]
  | none => return G.withoutDirectRecursion G.table.keys

/-- The rules with the bodies of one head that begin with a given non-terminal replaced. -/
def substituteLeading (later : Symbol) (table : RuleTable) (earlier : Symbol) : RuleTable :=
  match table.get? earlier, table.get? later with
  | some substitutes, some bodies =>
    table.insert later (OrderedSet.ofList (bodies.toList.flatMap fun body =>
      if body.head? = some earlier then
        substitutes.toList.map fun substitute => substitute ++ body.tail
      else [body]))
  | _, _ => table

/-- Treats heads in order; `earlier` are the heads before them. -/
def removeRecursionInOrder (earlier : List Symbol) (state : RuleTable × SymbolPool) :
    List Symbol → RuleTable × SymbolPool
  | [] => state
  | later :: rest =>
    let table := earlier.foldl (substituteLeading later) state.1
    removeRecursionInOrder (earlier ++ [later]) (removeDirectRecursion (table, state.2) later) rest

def removeLeftProduction (G : Grammar) : Except Error Grammar := do
  G.requireContextFree .removeLeftProduction
  return G.withTable (removeRecursionInOrder [] (G.table, .avoiding G.symbols) G.table.keys).1

end LanguageTheory.Grammar

import LanguageTheory.Grammar.Basic

/-!
Where a grammar stands in the Chomsky hierarchy. An empty body counts against a grammar of the
regular or the context-sensitive rank unless its head is the start symbol, which then must not
occur in any body.
-/

set_option autoImplicit false
set_option relaxedAutoImplicit false

namespace LanguageTheory.Grammar

def StartInBody (G : Grammar) : Prop := ∃ p ∈ G.rules.productions, G.start ∈ p.body

/-- The head may have an empty body in a grammar without other erasing rules. -/
def MayErase (G : Grammar) (head : Word) : Prop := head = [G.start] ∧ ¬ G.StartInBody

def ContextFree (G : Grammar) : Prop :=
  ∀ head ∈ G.rules.keys, ∃ A ∈ G.nonTerminals.toList, head = [A]

instance (G : Grammar) : Decidable G.StartInBody :=
  inferInstanceAs (Decidable (∃ p ∈ G.rules.productions, G.start ∈ p.body))

instance (G : Grammar) (head : Word) : Decidable (G.MayErase head) :=
  inferInstanceAs (Decidable (_ ∧ _))

instance (G : Grammar) : Decidable G.ContextFree :=
  inferInstanceAs (Decidable (∀ head ∈ G.rules.keys, ∃ A ∈ G.nonTerminals.toList, head = [A]))

def isRegularProduction (G : Grammar) (p : Production) : Bool :=
  match p.body with
  | [] => decide (G.MayErase p.head)
  | [a] => decide (a ∈ G.terminals)
  | [a, B] => decide (a ∈ G.terminals ∧ B ∈ G.nonTerminals)
  | _ => false

def isMonotone (G : Grammar) (p : Production) : Bool :=
  match p.body with
  | [] => decide (G.MayErase p.head)
  | body => decide (p.head.length ≤ body.length)

/-- The most restricted rank whose conditions the grammar meets. -/
def rank (G : Grammar) : GrammarRank :=
  if G.ContextFree then
    if G.rules.productions.all G.isRegularProduction then .regular else .contextFree
  else if G.rules.productions.all G.isMonotone then .contextSensitive
  else .unrestricted

def requireRegular (G : Grammar) (operation : Operation) : Except Error Unit :=
  match G.rank with
  | .regular => .ok ()
  | found => .error (.wrongRank operation .regular found)

def requireContextFree (G : Grammar) (operation : Operation) : Except Error Unit :=
  match G.rank with
  | .regular => .ok ()
  | .contextFree => .ok ()
  | found => .error (.wrongRank operation .contextFree found)

end LanguageTheory.Grammar

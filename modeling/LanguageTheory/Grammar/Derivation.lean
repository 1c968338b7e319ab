import Mathlib.Logic.Relation
import LanguageTheory.Grammar.Classification

/-!
Derivations. A step replaces one occurrence of a head by one of its bodies, and `Grammar.Derives`
is any number of steps. A leftmost step replaces the first non-terminal;
`Grammar.LeftmostDerivation` also lists the productions that are used, in order.
-/

set_option autoImplicit false
set_option relaxedAutoImplicit false

namespace LanguageTheory.Grammar

def Step (G : Grammar) (u v : Word) : Prop :=
  ∃ p ∈ G.rules.productions, ∃ before after,
    u = before ++ p.head ++ after ∧ v = before ++ p.body ++ after

def Derives (G : Grammar) : Word → Word → Prop := Relation.ReflTransGen G.Step

/-- One word becomes another in at least one step. -/
def DerivesProperly (G : Grammar) : Word → Word → Prop := Relation.TransGen G.Step

def IsTerminalWord (G : Grammar) (word : Word) : Prop := ∀ symbol ∈ word, symbol ∈ G.terminals

/-- The word consists of terminals and is derived from the start symbol. -/
def Generates (G : Grammar) (word : Word) : Prop :=
  G.IsTerminalWord word ∧ G.Derives [G.start] word

/-- The symbol derives in at least one step a word that begins with the symbol itself. -/
def LeftRecursive (G : Grammar) (symbol : Symbol) : Prop :=
  ∃ rest, G.DerivesProperly [symbol] (symbol :: rest)

def Disjoint (G : Grammar) : Prop := ∀ symbol ∈ G.nonTerminals, symbol ∉ G.terminals

instance (G : Grammar) : Decidable G.Disjoint :=
  inferInstanceAs (Decidable (∀ symbol ∈ G.nonTerminals.toList, symbol ∉ G.terminals))

/-- Uses a list of productions one after the other, each on the first non-terminal. -/
inductive LeftmostDerivation (G : Grammar) : List Production → Word → Word → Prop
  | done (word : Word) : LeftmostDerivation G [] word word
  | step {p : Production} {used : List Production} {before after word : Word}
      (member : p ∈ G.rules.productions) (terminals : G.IsTerminalWord before)
      (rest : LeftmostDerivation G used (before ++ p.body ++ after) word) :
      LeftmostDerivation G (p :: used) (before ++ p.head ++ after) word

theorem Step.append_left {G : Grammar} {u v : Word} (step : G.Step u v) (before : Word) :
    G.Step (before ++ u) (before ++ v) := by
  obtain ⟨p, member, left, right, rfl, rfl⟩ := step
  exact ⟨p, member, before ++ left, right, by simp [List.append_assoc], by
    simp [List.append_assoc]⟩

theorem Step.append_right {G : Grammar} {u v : Word} (step : G.Step u v) (after : Word) :
    G.Step (u ++ after) (v ++ after) := by
  obtain ⟨p, member, left, right, rfl, rfl⟩ := step
  exact ⟨p, member, left, right ++ after, by simp [List.append_assoc], by
    simp [List.append_assoc]⟩

theorem Step.of_mem {G : Grammar} {p : Production} (member : p ∈ G.rules.productions) :
    G.Step p.head p.body := ⟨p, member, [], [], by simp, by simp⟩

theorem Derives.append_left {G : Grammar} {u v : Word} (derivation : G.Derives u v)
    (before : Word) : G.Derives (before ++ u) (before ++ v) := by
  induction derivation with
  | refl => exact .refl
  | tail _ step ih => exact .tail ih (step.append_left before)

theorem Derives.append_right {G : Grammar} {u v : Word} (derivation : G.Derives u v)
    (after : Word) : G.Derives (u ++ after) (v ++ after) := by
  induction derivation with
  | refl => exact .refl
  | tail _ step ih => exact .tail ih (step.append_right after)

theorem Derives.append {G : Grammar} {u u' v v' : Word} (first : G.Derives u u')
    (second : G.Derives v v') : G.Derives (u ++ v) (u' ++ v') :=
  (first.append_right v).trans (second.append_left u')

theorem LeftmostDerivation.derives {G : Grammar} {used : List Production} {u v : Word}
    (derivation : G.LeftmostDerivation used u v) : G.Derives u v := by
  induction derivation with
  | done word => exact .refl
  | step member _ _ ih =>
    exact .head ((Step.of_mem member).append_left _ |>.append_right _) ih

end LanguageTheory.Grammar

import LanguageTheory.Collection.OrderedSet
import LanguageTheory.Collection.SortedSet

/-!
Symbols, words and alphabets. A symbol is any text: often one character, but `id` or `q1,q2` are
symbols as well. The names of states are texts of the same kind, and a set of states has a name of
its own, `compositeName`.
-/

set_option autoImplicit false
set_option relaxedAutoImplicit false

namespace LanguageTheory

abbrev Symbol := String

instance : Std.Trichotomous (α := Symbol) (· < ·) where
  trichotomous _ _ hab hba := String.le_antisymm (String.not_lt.mp hba) (String.not_lt.mp hab)

instance : Trans (α := Symbol) (β := Symbol) (γ := Symbol) (· < ·) (· < ·) (· < ·) where
  trans := String.lt_trans

instance : Std.Irrefl (α := Symbol) (· < ·) where
  irrefl := String.lt_irrefl

abbrev StateName := String

abbrev Word := List Symbol

instance : LawfulBEq Word := inferInstanceAs (LawfulBEq (List String))

/-- A finite set of symbols, listed in the order in which they were given. -/
abbrev Alphabet := OrderedSet Symbol

namespace Symbol

/-- The symbol that stands for the empty word. -/
def epsilon : Symbol := "ε"

/-- A second spelling of the symbol for the empty word. -/
def epsilonAlias : Symbol := "&"

def emptyLanguage : Symbol := "∅"

def endOfInput : Symbol := "$"

end Symbol

namespace Word

/-- The word with one symbol for each character of a text. -/
def ofText (text : String) : Word := text.toList.map fun c => String.ofList [c]

/-- The word as text, its symbols separated by blanks; the empty word is written `ε`. -/
def text : Word → String
  | [] => Symbol.epsilon
  | symbols => String.intercalate " " symbols

end Word

namespace Alphabet

def visible (alphabet : Alphabet) : Alphabet :=
  alphabet.filter fun symbol => decide (symbol ≠ Symbol.epsilon)

theorem mem_visible {alphabet : Alphabet} {symbol : Symbol} :
    symbol ∈ alphabet.visible ↔ symbol ∈ alphabet ∧ symbol ≠ Symbol.epsilon := by
  simp [visible]

theorem visible_eq {alphabet : Alphabet} (free : Symbol.epsilon ∉ alphabet) :
    alphabet.visible = alphabet := by
  apply OrderedSet.eq_of_toList_eq
  refine List.filter_eq_self.mpr fun symbol mem => decide_eq_true ?_
  rintro rfl
  exact free mem

end Alphabet

/-- The name of a set of states: its members in order, separated by commas. -/
def compositeName (names : SortedSet StateName) : StateName :=
  String.intercalate "," names.toList

end LanguageTheory

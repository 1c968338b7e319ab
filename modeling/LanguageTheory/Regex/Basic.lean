import LanguageTheory.Symbol

/-!
Regular expressions over symbols and their text. Repetition binds tighter than concatenation and
concatenation tighter than union; an operand is put into parentheses only if it binds less tightly
than its operator.
-/

set_option autoImplicit false
set_option relaxedAutoImplicit false

namespace LanguageTheory

inductive Regex where
  | epsilon
  | literal (symbol : Symbol)
  | concat (first second : Regex)
  | union (first second : Regex)
  | star (inner : Regex)
  deriving DecidableEq

namespace Regex

def literals : Regex → List Symbol
  | epsilon => []
  | literal symbol => [symbol]
  | concat first second => first.literals ++ second.literals
  | union first second => first.literals ++ second.literals
  | star inner => inner.literals

/-- The symbols of the expression, in the order in which they first appear. -/
def alphabet (r : Regex) : Alphabet := OrderedSet.ofList r.literals

/-- How tightly the outermost operator binds. -/
def strength : Regex → Nat
  | union _ _ => 0
  | concat _ _ => 1
  | _ => 2

def parenthesized (text : String) : String := "(" ++ text ++ ")"

def text : Regex → String
  | epsilon => Symbol.epsilon
  | literal symbol => symbol
  | union first second => first.text ++ "|" ++ second.text
  | concat first second =>
    (if first.strength < 1 then parenthesized first.text else first.text) ++
      (if second.strength < 1 then parenthesized second.text else second.text)
  | star inner => (if inner.strength < 2 then parenthesized inner.text else inner.text) ++ "*"

end Regex

end LanguageTheory

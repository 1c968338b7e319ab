import LanguageTheory.Error
import LanguageTheory.Regex.Basic
import LanguageTheory.Text

/-!
Reading regular expressions. Every character that is not blank is a symbol or one of the operators
`|`, `*`, `+`, `?`, `.`, `•` and parentheses; `ε` and `&` stand for the empty word. The reader takes
one character at a time and keeps, for each open parenthesis, the alternatives and the sequence that
are not finished. It stops at the first character that no expression can have at its place.
-/

set_option autoImplicit false
set_option relaxedAutoImplicit false

namespace LanguageTheory.Regex

/-- A sequence of terms that may go on. The last term can still be repeated; after a dot another
term has to follow. -/
inductive Sequence where
  | empty
  | single (last : Regex)
  | several (before last : Regex)
  | dotted (before : Regex)
  deriving DecidableEq

namespace Sequence

def append (term : Regex) : Sequence → Sequence
  | empty => single term
  | single last => several last term
  | several before last => several (concat before last) term
  | dotted before => several before term

/-- The expression that the sequence is, unless a term has to follow. -/
def whole : Sequence → Except RegexFault Regex
  | empty => .ok epsilon
  | single last => .ok last
  | several before last => .ok (concat before last)
  | dotted _ => .error .noRightOperand

/-- The sequence with its last term changed by a postfix operator. -/
def mapLast (operator : Regex → Regex) : Sequence → Except RegexFault Sequence
  | single last => .ok (single (operator last))
  | several before last => .ok (several before (operator last))
  | empty => .error .noOperand
  | dotted _ => .error .noOperand

def dot : Sequence → Except RegexFault Sequence
  | empty => .error .noLeftOperand
  | single last => .ok (dotted last)
  | several before last => .ok (dotted (concat before last))
  | dotted before => .ok (dotted before)

end Sequence

/-- What has been read between an opening parenthesis and now: the finished alternatives, the last
one first, and the sequence that goes on. -/
structure Group where
  alternatives : List Regex
  sequence : Sequence
  deriving DecidableEq

namespace Group

def empty : Group := ⟨[], .empty⟩

/-- The expression that the group is: its alternatives, joined from the right. -/
def whole (group : Group) : Except RegexFault Regex :=
  group.sequence.whole.map fun last =>
    group.alternatives.foldl (fun joined alternative => union alternative joined) last

def bar (group : Group) : Except RegexFault Group :=
  group.sequence.whole.map fun alternative => ⟨alternative :: group.alternatives, .empty⟩

end Group

/-- What has been read of an expression: the innermost open group and those around it. -/
structure Reader where
  inner : Group
  outer : List Group
  deriving DecidableEq

namespace Reader

def start : Reader := ⟨.empty, []⟩

def withSequence (reader : Reader) (sequence : Sequence) : Reader :=
  { reader with inner := { reader.inner with sequence := sequence } }

def term (reader : Reader) (atom : Regex) : Reader :=
  reader.withSequence (reader.inner.sequence.append atom)

def postfixed (reader : Reader) (operator : Regex → Regex) : Except RegexFault Reader :=
  (reader.inner.sequence.mapLast operator).map reader.withSequence

def close (reader : Reader) : Except RegexFault Reader :=
  match reader.inner.whole, reader.outer with
  | .error fault, _ => .error fault
  | .ok _, [] => .error .unopenedGroup
  | .ok group, around :: outer =>
    .ok ⟨{ around with sequence := around.sequence.append group }, outer⟩

/-- The reader after one more character, which is not blank. -/
def read (reader : Reader) (c : Char) : Except RegexFault Reader :=
  match c with
  | '(' => .ok ⟨.empty, reader.inner :: reader.outer⟩
  | ')' => reader.close
  | '|' => reader.inner.bar.map fun inner => { reader with inner := inner }
  | '*' => reader.postfixed star
  | '+' => reader.postfixed fun last => concat last (star last)
  | '?' => reader.postfixed fun last => union last epsilon
  | '.' => reader.inner.sequence.dot.map reader.withSequence
  | '•' => reader.inner.sequence.dot.map reader.withSequence
  | 'ε' => .ok (reader.term epsilon)
  | '&' => .ok (reader.term epsilon)
  | _ => .ok (reader.term (literal (String.ofList [c])))

/-- The expression that has been read, if it may end here. -/
def finish (reader : Reader) : Except RegexFault Regex :=
  match reader.inner.whole, reader.outer with
  | .error fault, _ => .error fault
  | .ok whole, [] => .ok whole
  | .ok _, _ :: _ => .error .unclosedGroup

/-- Reads the rest of a text that starts at a byte position. -/
def readAll (reader : Reader) (position : Nat) : List Char → Except Error Regex
  | [] => reader.finish.mapError (Error.regexSyntax position)
  | c :: rest =>
    if Text.isBlank c then reader.readAll (position + c.utf8Size) rest
    else
      match reader.read c with
      | .error fault => .error (.regexSyntax position fault)
      | .ok reader => reader.readAll (position + c.utf8Size) rest

end Reader

def parse (text : String) : Except Error Regex := Reader.start.readAll 0 text.toList

end LanguageTheory.Regex

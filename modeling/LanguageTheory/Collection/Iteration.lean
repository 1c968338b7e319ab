import LanguageTheory.Collection.SortedSet

/-!
Repetition with a bound on the rounds, which every use computes from its input.

In breadth-first discovery every item found leads to further items; an item counts as new if its key
is not the key of an item found before. The items are returned in the order of their discovery,
which is also the order in which they are looked at, so what has to be computed for each item can be
computed afterwards from the list.

In depth-first search the item put on the stack last is taken off first; unless it has been visited
before, it is now, and the items it leads to are put on the stack. An item may lie on the stack more
than once, and is dropped when it is taken off again.

`stabilize` repeats a step until it changes nothing; `stabilize_stable` says that enough rounds lead
to a value that the step leaves alone.
-/

set_option autoImplicit false
set_option relaxedAutoImplicit false

namespace LanguageTheory

namespace Discovery

universe u v

variable {α : Type u} {κ : Type v} [DecidableEq κ]

/-- The items of a list whose keys are neither among `known` nor those of earlier items. -/
def fresh (key : α → κ) : List κ → List α → List α
  | _, [] => []
  | known, a :: items =>
    if key a ∈ known then fresh key known items else a :: fresh key (key a :: known) items

/-- Looks at up to `fuel` pending items in turn, adding the new items each of them leads to. -/
def explore (key : α → κ) (next : α → List α) : Nat → List α → List α → List α
  | 0, found, _ => found
  | _ + 1, found, [] => found
  | fuel + 1, found, a :: pending =>
    let added := fresh key (found.map key) (next a)
    explore key next fuel (found ++ added) (pending ++ added)

/-- The items that can be reached from `starts`, where `bound` is a bound on their number. -/
def reached (key : α → κ) (next : α → List α) (bound : Nat) (starts : List α) : List α :=
  let first := fresh key [] starts
  explore key next bound first first

end Discovery

namespace DepthFirst

universe u

variable {α : Type u} [LT α] [DecidableEq α] [DecidableLT α] [Std.Trichotomous (α := α) (· < ·)]
  [Trans (α := α) (β := α) (γ := α) (· < ·) (· < ·) (· < ·)]

/-- What an item that has just been visited puts on the stack, the last item uppermost. -/
def pushed (next : α → List α) (visited : SortedSet α) (a : α) : List α :=
  ((next a).filter fun b => decide (b ∉ visited)).reverse

/-- Takes up to `fuel` items off the stack and visits those that are new. -/
def visit (next : α → List α) : Nat → SortedSet α → List α → SortedSet α
  | 0, visited, _ => visited
  | _ + 1, visited, [] => visited
  | fuel + 1, visited, a :: stack =>
    if a ∈ visited then visit next fuel visited stack
    else visit next fuel (visited.insert a) (pushed next (visited.insert a) a ++ stack)

/-- The items that can be reached from `start`; `bound` bounds how often an item is taken off. -/
def reached (next : α → List α) (bound : Nat) (start : α) : SortedSet α :=
  visit next bound .empty [start]

end DepthFirst

universe u

variable {α : Type u} [DecidableEq α]

/-- Applies a step until the value stays the same, at most `rounds` times. -/
def stabilize (step : α → α) : Nat → α → α
  | 0, a => a
  | rounds + 1, a => if step a = a then a else stabilize step rounds (step a)

theorem stabilize_induction {step : α → α} {P : α → Prop} (keep : ∀ a, P a → P (step a))
    (rounds : Nat) {a : α} (start : P a) : P (stabilize step rounds a) := by
  induction rounds generalizing a with
  | zero => exact start
  | succ rounds ih =>
    unfold stabilize
    split
    · exact start
    · exact ih (keep a start)

/-- If every step that changes the value makes it larger, and there is a limit on its size, then
rounds up to that limit are enough for the value to become stable. -/
theorem stabilize_stable {step : α → α} {P : α → Prop} (size : α → Nat) (limit : Nat)
    (keep : ∀ a, P a → P (step a)) (bounded : ∀ a, P a → size a ≤ limit)
    (grows : ∀ a, P a → step a ≠ a → size a < size (step a))
    {rounds : Nat} {a : α} (start : P a) (enough : limit < rounds + size a) :
    step (stabilize step rounds a) = stabilize step rounds a := by
  induction rounds generalizing a with
  | zero =>
    have small := bounded a start
    omega
  | succ rounds ih =>
    unfold stabilize
    split
    · assumption
    · rename_i changed
      have larger := grows a start changed
      exact ih (keep a start) (by omega)

end LanguageTheory

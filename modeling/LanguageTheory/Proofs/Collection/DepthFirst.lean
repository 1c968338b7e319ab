import Mathlib.Logic.Relation
import LanguageTheory.Collection.Iteration

/-!
What depth-first search finds. Every item that is visited or on the stack can be reached, and what a
visited item leads to is visited or on the stack (`Progress`). So when the stack is empty, the
visited items are exactly those that can be reached. That happens in time if the items not yet
visited can pay for all they put on the stack (`mem_reached_iff`).
-/

set_option autoImplicit false
set_option relaxedAutoImplicit false

namespace LanguageTheory.DepthFirst

universe u

variable {α : Type u} [LT α] {next : α → List α} {start : α}

structure Progress (next : α → List α) (start : α) (visited : SortedSet α) (stack : List α) :
    Prop where
  reachable : ∀ a, a ∈ visited ∨ a ∈ stack → Relation.ReflTransGen (fun x y => y ∈ next x) start a
  start_known : start ∈ visited ∨ start ∈ stack
  closed : ∀ a ∈ visited, ∀ b ∈ next a, b ∈ visited ∨ b ∈ stack

private theorem progress_start (next : α → List α) (start : α) :
    Progress next start .empty [start] where
  reachable := by
    rintro a (mem | mem)
    · exact absurd mem (SortedSet.not_mem_empty a)
    · rw [List.mem_singleton.mp mem]
  start_known := Or.inr (List.mem_singleton_self start)
  closed a mem := absurd mem (SortedSet.not_mem_empty a)

private theorem Progress.drop {visited : SortedSet α} {a : α} {stack : List α}
    (progress : Progress next start visited (a :: stack)) (old : a ∈ visited) :
    Progress next start visited stack := by
  have kept : ∀ b, b ∈ visited ∨ b ∈ a :: stack → b ∈ visited ∨ b ∈ stack := by
    rintro b (mem | mem)
    · exact Or.inl mem
    · rcases List.mem_cons.mp mem with rfl | mem
      · exact Or.inl old
      · exact Or.inr mem
  exact {
    reachable := fun b mem => progress.reachable b (mem.imp id (List.mem_cons_of_mem a))
    start_known := kept start progress.start_known
    closed := fun b mem c edge => kept c (progress.closed b mem c edge) }

private theorem Progress.mem_iff {visited : SortedSet α} (progress : Progress next start visited [])
    {a : α} : a ∈ visited ↔ Relation.ReflTransGen (fun x y => y ∈ next x) start a := by
  constructor
  · exact fun mem => progress.reachable a (Or.inl mem)
  · intro way
    induction way with
    | refl => exact progress.start_known.resolve_right List.not_mem_nil
    | tail _ edge ih => exact (progress.closed _ ih _ edge).resolve_right List.not_mem_nil

section Search

variable [DecidableEq α]

private theorem mem_pushed {visited : SortedSet α} {a b : α} :
    b ∈ pushed next visited a ↔ b ∈ next a ∧ b ∉ visited := by
  rw [pushed, List.mem_reverse, List.mem_filter, decide_eq_true_eq]

private theorem length_pushed_le (next : α → List α) (visited : SortedSet α) (a : α) :
    (pushed next visited a).length ≤ (next a).length := by
  rw [pushed, List.length_reverse]
  exact List.length_filter_le _ _

variable [DecidableLT α] [Std.Trichotomous (α := α) (· < ·)]
  [Trans (α := α) (β := α) (γ := α) (· < ·) (· < ·) (· < ·)]

private theorem Progress.visit {visited : SortedSet α} {a : α} {stack : List α}
    (progress : Progress next start visited (a :: stack)) :
    Progress next start (visited.insert a) (pushed next (visited.insert a) a ++ stack) := by
  have kept : ∀ b, b ∈ visited ∨ b ∈ a :: stack →
      b ∈ visited.insert a ∨ b ∈ pushed next (visited.insert a) a ++ stack := by
    rintro b (mem | mem)
    · exact Or.inl (SortedSet.mem_insert.mpr (Or.inl mem))
    · rcases List.mem_cons.mp mem with rfl | mem
      · exact Or.inl (SortedSet.mem_insert.mpr (Or.inr rfl))
      · exact Or.inr (List.mem_append_right _ mem)
  have here := progress.reachable a (Or.inr List.mem_cons_self)
  refine ⟨?_, kept start progress.start_known, ?_⟩
  · rintro b (mem | mem)
    · rcases SortedSet.mem_insert.mp mem with mem | rfl
      · exact progress.reachable b (Or.inl mem)
      · exact here
    · rcases List.mem_append.mp mem with mem | mem
      · exact here.tail (mem_pushed.mp mem).1
      · exact progress.reachable b (Or.inr (List.mem_cons_of_mem a mem))
  · intro b mem c edge
    rcases SortedSet.mem_insert.mp mem with mem | rfl
    · exact kept c (progress.closed b mem c edge)
    · by_cases old : c ∈ visited.insert b
      · exact Or.inl old
      · exact Or.inr (List.mem_append_left _ (mem_pushed.mpr ⟨edge, old⟩))

/-- The search comes to its end if what is on the stack, and what the items not visited so far may
still put there, does not exceed the fuel. -/
private theorem Progress.mem_visit_iff (credit : SortedSet α → Nat)
    (pays : ∀ visited, ∀ a ∉ visited,
      (next a).length + credit (visited.insert a) ≤ credit visited)
    {fuel : Nat} {visited : SortedSet α} {stack : List α}
    (progress : Progress next start visited stack)
    (enough : stack.length + credit visited ≤ fuel) {a : α} :
    a ∈ DepthFirst.visit next fuel visited stack ↔
      Relation.ReflTransGen (fun x y => y ∈ next x) start a := by
  induction fuel generalizing visited stack with
  | zero =>
    obtain rfl : stack = [] := List.eq_nil_of_length_eq_zero (by omega)
    exact progress.mem_iff
  | succ fuel ih =>
    cases stack with
    | nil => exact progress.mem_iff
    | cons b stack =>
      rw [List.length_cons] at enough
      rw [DepthFirst.visit]
      split
      · rename_i old
        exact ih (progress.drop old) (by omega)
      · rename_i new
        have paid := pays visited b new
        have few := length_pushed_le next (visited.insert b) b
        refine ih progress.visit ?_
        rw [List.length_append]
        omega

theorem mem_reached_iff (credit : SortedSet α → Nat)
    (pays : ∀ visited, ∀ a ∉ visited,
      (next a).length + credit (visited.insert a) ≤ credit visited)
    {bound : Nat} (enough : credit .empty < bound) {a : α} :
    a ∈ reached next bound start ↔ Relation.ReflTransGen (fun x y => y ∈ next x) start a := by
  refine (progress_start next start).mem_visit_iff credit pays ?_
  rw [List.length_singleton]
  omega

end Search

end LanguageTheory.DepthFirst

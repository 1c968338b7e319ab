import Mathlib
import LanguageTheory.FreshName

/-!
New names are new. The candidates of a supply are pairwise distinct, so the search, which looks at
one candidate more than there are taken names, ends at a name that is not taken.
-/

set_option autoImplicit false
set_option relaxedAutoImplicit false

namespace LanguageTheory

section FirstFree

variable {candidate : Nat → String} {taken : List String}

private theorem firstFree_taken {fuel index : Nat}
    (mem : candidate (firstFree candidate taken fuel index) ∈ taken) :
    ∀ offset ≤ fuel, candidate (index + offset) ∈ taken := by
  induction fuel generalizing index with
  | zero =>
    intro offset bound
    obtain rfl : offset = 0 := Nat.le_zero.mp bound
    exact mem
  | succ fuel ih =>
    unfold firstFree at mem
    split at mem
    · rename_i here
      intro offset bound
      cases offset with
      | zero => exact here
      | succ offset =>
        have later := ih mem offset (Nat.le_of_succ_le_succ bound)
        rwa [Nat.add_right_comm] at later
    · rename_i free
      exact absurd mem free

theorem firstFree_not_mem (injective : Function.Injective candidate) (taken : List String)
    (index : Nat) : candidate (firstFree candidate taken taken.length index) ∉ taken := by
  intro mem
  have all := firstFree_taken mem
  have inside : (Finset.range (taken.length + 1)).image (fun offset => candidate (index + offset)) ⊆
      taken.toFinset := by
    intro name found
    obtain ⟨offset, bound, rfl⟩ := Finset.mem_image.mp found
    exact List.mem_toFinset.mpr (all offset (Nat.le_of_lt_succ (Finset.mem_range.mp bound)))
  have distinct : Function.Injective fun offset => candidate (index + offset) :=
    fun _ _ same => Nat.add_left_cancel (injective same)
  have count := (Finset.card_le_card inside).trans taken.toFinset_card_le
  rw [Finset.card_image_of_injective _ distinct, Finset.card_range] at count
  omega

end FirstFree

namespace StateNameSupply

theorem candidate_injective (supply : StateNameSupply) : Function.Injective supply.candidate := by
  intro i j same
  have texts := congrArg String.toList same
  rw [candidate, candidate, String.toList_append, String.toList_append] at texts
  exact Nat.repr_injective (String.toList_inj.mp (List.append_cancel_left texts))

theorem nextFree_not_mem (supply : StateNameSupply) (taken : List StateName) :
    (supply.nextFree taken).1 ∉ taken :=
  firstFree_not_mem supply.candidate_injective taken supply.counter

theorem nextFree_ne_epsilon {supply : StateNameSupply} (stem : supply.stem = defaultStem)
    (taken : List StateName) : (supply.nextFree taken).1 ≠ Symbol.epsilon := by
  intro same
  have heads := congrArg (fun text => text.toList.head?) same
  simp [nextFree, candidate, stem, defaultStem, Symbol.epsilon] at heads

end StateNameSupply

namespace SymbolPool

def roundText (round : Nat) : String := if round = 0 then "" else toString round

private theorem roundText_injective : Function.Injective roundText := by
  intro i j same
  unfold roundText at same
  split at same
  · rename_i first
    split at same
    · rename_i second
      exact first.trans second.symm
    · exact absurd same.symm Nat.repr_ne_empty
  · split at same
    · exact absurd same Nat.repr_ne_empty
    · exact Nat.repr_injective same

private theorem candidate_eq (index : Nat) : candidate index =
    letters.getD (index % letters.length) "" ++ roundText (index / letters.length) := by
  by_cases first : index / letters.length = 0
  · simp [candidate, roundText, first]
  · simp [candidate, roundText, first]

private theorem length_letter :
    ∀ place < letters.length, (letters.getD place "").length = 1 := by decide

private theorem letter_injective : ∀ place < letters.length, ∀ other < letters.length,
    letters.getD place "" = letters.getD other "" → place = other := by decide

theorem candidate_injective : Function.Injective candidate := by
  intro i j same
  have bound (index : Nat) : index % letters.length < letters.length := Nat.mod_lt _ (by decide)
  have texts := congrArg String.toList same
  rw [candidate_eq, candidate_eq, String.toList_append, String.toList_append] at texts
  have lengths : (letters.getD (i % letters.length) "").toList.length =
      (letters.getD (j % letters.length) "").toList.length :=
    (length_letter _ (bound i)).trans (length_letter _ (bound j)).symm
  obtain ⟨letter, round⟩ := List.append_inj texts lengths
  have places := letter_injective _ (bound i) _ (bound j) (String.toList_inj.mp letter)
  have rounds := roundText_injective (String.toList_inj.mp round)
  rw [← Nat.div_add_mod i letters.length, ← Nat.div_add_mod j letters.length, places, rounds]

private theorem candidate_ne_epsilon (index : Nat) : candidate index ≠ Symbol.epsilon := by
  intro same
  have bound : index % letters.length < letters.length := Nat.mod_lt _ (by decide)
  have first : ∀ place < letters.length,
      (letters.getD place "").toList.head? ≠ Symbol.epsilon.toList.head? := by decide
  have filled : (letters.getD (index % letters.length) "").toList ≠ [] := by
    intro empty
    have one : (letters.getD (index % letters.length) "").toList.length = 1 := length_letter _ bound
    rw [empty] at one
    cases one
  have heads := congrArg (fun text => text.toList.head?) same
  simp only [candidate_eq, String.toList_append, List.head?_append_of_ne_nil _ filled] at heads
  exact first _ bound heads

theorem fresh_not_mem (pool : SymbolPool) : pool.fresh.1 ∉ pool.used :=
  firstFree_not_mem candidate_injective pool.used pool.counter

theorem fresh_ne_epsilon (pool : SymbolPool) : pool.fresh.1 ≠ Symbol.epsilon :=
  candidate_ne_epsilon _

theorem used_fresh (pool : SymbolPool) : pool.fresh.2.used = pool.fresh.1 :: pool.used := rfl

/-- The pool hands out the symbols one after the other and then has become the second pool. -/
inductive Draws : SymbolPool → List Symbol → SymbolPool → Prop
  | nil (pool : SymbolPool) : Draws pool [] pool
  | cons {pool last : SymbolPool} {symbols : List Symbol} (rest : Draws pool.fresh.2 symbols last) :
      Draws pool (pool.fresh.1 :: symbols) last

variable {pool middle last : SymbolPool} {symbols later : List Symbol}

theorem Draws.append (first : Draws pool symbols middle) (second : Draws middle later last) :
    Draws pool (symbols ++ later) last := by
  induction first with
  | nil _ => exact second
  | cons _ ih => exact .cons (ih second)

theorem Draws.not_mem (drawn : Draws pool symbols last) :
    ∀ symbol ∈ symbols, symbol ∉ pool.used := by
  induction drawn with
  | nil _ => exact fun symbol mem => absurd mem List.not_mem_nil
  | @cons pool last symbols rest ih =>
    refine List.forall_mem_cons.mpr ⟨pool.fresh_not_mem, fun symbol mem old => ?_⟩
    exact ih symbol mem (used_fresh pool ▸ List.mem_cons_of_mem _ old)

theorem Draws.nodup (drawn : Draws pool symbols last) : symbols.Nodup := by
  induction drawn with
  | nil _ => exact List.nodup_nil
  | @cons pool last symbols rest ih =>
    refine List.nodup_cons.mpr ⟨fun again => ?_, ih⟩
    exact rest.not_mem _ again (used_fresh pool ▸ List.mem_cons_self)

theorem Draws.ne_epsilon (drawn : Draws pool symbols last) :
    ∀ symbol ∈ symbols, symbol ≠ Symbol.epsilon := by
  induction drawn with
  | nil _ => exact fun symbol mem => absurd mem List.not_mem_nil
  | @cons pool _ _ _ ih => exact List.forall_mem_cons.mpr ⟨pool.fresh_ne_epsilon, ih⟩

end SymbolPool

end LanguageTheory

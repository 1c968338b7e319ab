import Mathlib.Data.Finset.Card
import Mathlib.Order.Basic

/-!
Elements that come in stages. When a stage brings nothing new, no later one does; so elements of a
finite set come within as many stages as the set has elements.
-/

set_option autoImplicit false
set_option relaxedAutoImplicit false

namespace LanguageTheory

universe u

variable {α : Type u} {comes : Nat → α → Prop}

def Settled (comes : Nat → α → Prop) (stage : Nat) : Prop :=
  ∀ a, comes (stage + 1) a → ∃ earlier ≤ stage, comes earlier a

private theorem Settled.exists_le {stage : Nat} (settled : Settled comes stage)
    (lasting : ∀ k, Settled comes k → Settled comes (k + 1)) {k : Nat} {a : α} (now : comes k a) :
    ∃ earlier ≤ stage, comes earlier a := by
  have later : ∀ k, stage ≤ k → Settled comes k := by
    intro k hk
    induction hk with
    | refl => exact settled
    | step _ ih => exact lasting _ ih
  induction k using Nat.strong_induction_on with
  | h k ih =>
    by_cases small : k ≤ stage
    · exact ⟨k, small, now⟩
    · obtain ⟨m, rfl⟩ : ∃ m, k = m + 1 := ⟨k - 1, by omega⟩
      obtain ⟨earlier, hm, before⟩ := later m (by omega) a now
      exact ih earlier (by omega) before

theorem exists_stage_le (whole : Finset α) (inside : ∀ k a, comes k a → a ∈ whole)
    (lasting : ∀ k, Settled comes k → Settled comes (k + 1)) {k : Nat} {a : α} (now : comes k a) :
    ∃ earlier ≤ whole.card, comes earlier a := by
  classical
  let upTo (stage : Nat) : Finset α := whole.filter fun a => ∃ earlier ≤ stage, comes earlier a
  have count : ∀ stage, stage ≤ (upTo stage).card ∨ Settled comes stage := by
    intro stage
    induction stage with
    | zero => exact Or.inl (Nat.zero_le _)
    | succ stage ih =>
      by_cases settled : Settled comes stage
      · exact Or.inr (lasting stage settled)
      · have enough := ih.resolve_right settled
        -- Something comes at the next stage for the first time.
        obtain ⟨b, new, none⟩ : ∃ b, comes (stage + 1) b ∧
            ¬ ∃ earlier ≤ stage, comes earlier b := by
          by_contra all
          exact settled fun b hb => by_contra fun h => all ⟨b, hb, h⟩
        have more : upTo stage ⊂ upTo (stage + 1) := by
          refine Finset.ssubset_iff_of_subset ?_ |>.mpr ⟨b, ?_, ?_⟩
          · intro c hc
            obtain ⟨mem, earlier, le, before⟩ := Finset.mem_filter.mp hc
            exact Finset.mem_filter.mpr ⟨mem, earlier, by omega, before⟩
          · exact Finset.mem_filter.mpr ⟨inside _ b new, stage + 1, by omega, new⟩
          · exact fun hb => none (Finset.mem_filter.mp hb).2
        have larger := Finset.card_lt_card more
        exact Or.inl (by omega)
  have settled : Settled comes whole.card := by
    rcases count whole.card with full | settled
    · intro b hb
      have all : upTo whole.card = whole := Finset.eq_of_subset_of_card_le
        (Finset.filter_subset _ whole) full
      have mem : b ∈ upTo whole.card := all.symm ▸ inside _ b hb
      exact (Finset.mem_filter.mp mem).2
    · exact settled
  exact settled.exists_le lasting now

end LanguageTheory

import Mathlib.Data.Finset.Card
import Mathlib.Logic.Relation
import LanguageTheory.Collection.Iteration

/-!
What breadth-first discovery finds. The items found grow out of the starts one by one (`Grown`),
their keys are distinct, and if the keys that can occur fit into the bound, the items found are
closed: the key of everything they lead to has been found as well. The bound then does not show in
the result: it is what the search finds that goes on until nothing is pending (`Ends`).
-/

set_option autoImplicit false
set_option relaxedAutoImplicit false

namespace LanguageTheory.Discovery

universe u v

variable {α : Type u} {κ : Type v}

/-- A list of which every item is a start or a successor of an item before it. -/
inductive Grown (next : α → List α) (starts : List α) : List α → Prop
  | nil : Grown next starts []
  | start {found : List α} {a : α} (rest : Grown next starts found) (mem : a ∈ starts) :
      Grown next starts (found ++ [a])
  | step {found : List α} {a b : α} (rest : Grown next starts found) (mem : a ∈ found)
      (edge : b ∈ next a) : Grown next starts (found ++ [b])

private theorem Grown.append {next : α → List α} {starts found items : List α}
    (grown : Grown next starts found)
    (origin : ∀ b ∈ items, b ∈ starts ∨ ∃ a ∈ found, b ∈ next a) :
    Grown next starts (found ++ items) := by
  induction items generalizing found with
  | nil => simpa using grown
  | cons b items ih =>
    have extended : Grown next starts (found ++ [b]) := by
      rcases origin b (by simp) with mem | ⟨a, mem, edge⟩
      · exact .start grown mem
      · exact .step grown mem edge
    have later : Grown next starts ((found ++ [b]) ++ items) := by
      apply ih extended
      intro c hc
      rcases origin c (by simp [hc]) with mem | ⟨a, mem, edge⟩
      · exact Or.inl mem
      · exact Or.inr ⟨a, by simp [mem], edge⟩
    simpa using later

theorem Grown.induction {next : α → List α} {starts found : List α} {Q : α → Prop}
    (grown : Grown next starts found) (base : ∀ a ∈ found, a ∈ starts → Q a)
    (edge : ∀ a ∈ found, Q a → ∀ b ∈ next a, b ∈ found → Q b) : ∀ a ∈ found, Q a := by
  induction grown with
  | nil => simp
  | @start found a rest mem ih =>
    have before : ∀ b ∈ found, Q b := by
      apply ih
      · exact fun b hb => base b (by simp [hb])
      · exact fun b hb hQ c hc hcf => edge b (by simp [hb]) hQ c hc (by simp [hcf])
    intro b hb
    rcases List.mem_append.mp hb with hb | hb
    · exact before b hb
    · obtain rfl := List.mem_singleton.mp hb
      exact base b (by simp) mem
  | @step found a b rest mem edge_mem ih =>
    have before : ∀ c ∈ found, Q c := by
      apply ih
      · exact fun c hc => base c (by simp [hc])
      · exact fun c hc hQ d hd hdf => edge c (by simp [hc]) hQ d hd (by simp [hdf])
    intro c hc
    rcases List.mem_append.mp hc with hc | hc
    · exact before c hc
    · obtain rfl := List.mem_singleton.mp hc
      exact edge a (by simp [mem]) (before a mem) c edge_mem (by simp)

variable [DecidableEq κ] {key : α → κ} {next : α → List α}

private theorem mem_of_mem_fresh {known : List κ} {items : List α} {a : α}
    (mem : a ∈ fresh key known items) : a ∈ items ∧ key a ∉ known := by
  induction items generalizing known with
  | nil => simp [fresh] at mem
  | cons b items ih =>
    unfold fresh at mem
    split at mem
    · exact ⟨List.mem_cons_of_mem b (ih mem).1, (ih mem).2⟩
    · rename_i hb
      rcases List.mem_cons.mp mem with rfl | mem
      · exact ⟨by simp, hb⟩
      · obtain ⟨later, new⟩ := ih mem
        exact ⟨List.mem_cons_of_mem b later, fun h => new (List.mem_cons_of_mem _ h)⟩

private theorem nodup_keys_fresh (known : List κ) (items : List α) :
    ((fresh key known items).map key).Nodup := by
  induction items generalizing known with
  | nil => simp [fresh]
  | cons b items ih =>
    unfold fresh
    split
    · exact ih known
    · rw [List.map_cons, List.nodup_cons]
      refine ⟨?_, ih _⟩
      intro h
      obtain ⟨a, mem, same⟩ := List.mem_map.mp h
      exact (mem_of_mem_fresh mem).2 (by simp [same])

private theorem key_mem_fresh (key : α → κ) (known : List κ) {items : List α} {a : α}
    (mem : a ∈ items) :
    key a ∈ known ∨ key a ∈ (fresh key known items).map key := by
  induction items generalizing known with
  | nil => simp at mem
  | cons b items ih =>
    unfold fresh
    split
    · rename_i hb
      rcases List.mem_cons.mp mem with rfl | mem
      · exact Or.inl hb
      · exact ih known mem
    · rw [List.map_cons, List.mem_cons]
      rcases List.mem_cons.mp mem with rfl | mem
      · exact Or.inr (Or.inl rfl)
      · rcases ih (key b :: known) mem with h | h
        · rcases List.mem_cons.mp h with h | h
          · exact Or.inr (Or.inl h)
          · exact Or.inl h
        · exact Or.inr (Or.inr h)

theorem fresh_singleton (key : α → κ) (a : α) : fresh key [] [a] = [a] := by simp [fresh]

/-- What holds at any point of the search: the items looked at, then the pending ones. -/
structure Progress (key : α → κ) (next : α → List α) (starts done pending : List α) : Prop where
  grown : Grown next starts (done ++ pending)
  nodup : ((done ++ pending).map key).Nodup
  starts_found : ∀ a ∈ starts, key a ∈ (done ++ pending).map key
  closed : ∀ a ∈ done, ∀ b ∈ next a, key b ∈ (done ++ pending).map key

private theorem Progress.advance {starts done pending : List α} {a : α}
    (progress : Progress key next starts done (a :: pending)) :
    Progress key next starts (done ++ [a])
      (pending ++ fresh key ((done ++ a :: pending).map key) (next a)) := by
  let added := fresh key ((done ++ a :: pending).map key) (next a)
  have shape : (done ++ [a]) ++ (pending ++ added) = (done ++ a :: pending) ++ added := by simp
  have kept : ∀ k ∈ (done ++ a :: pending).map key,
      k ∈ ((done ++ [a]) ++ (pending ++ added)).map key := by
    intro k hk
    rw [shape, List.map_append]
    exact List.mem_append_left _ hk
  refine ⟨?_, ?_, fun b hb => kept _ (progress.starts_found b hb), ?_⟩
  · rw [shape]
    apply progress.grown.append
    exact fun b hb => Or.inr ⟨a, by simp, (mem_of_mem_fresh hb).1⟩
  · rw [shape, List.map_append, List.nodup_append]
    refine ⟨progress.nodup, nodup_keys_fresh _ _, ?_⟩
    intro k hk l hl same
    obtain ⟨b, hb, rfl⟩ := List.mem_map.mp hl
    exact (mem_of_mem_fresh hb).2 (same ▸ hk)
  · intro b hb c hc
    rcases List.mem_append.mp hb with hb | hb
    · exact kept _ (progress.closed b hb c hc)
    · obtain rfl := List.mem_singleton.mp hb
      rcases key_mem_fresh key ((done ++ b :: pending).map key) hc with h | h
      · exact kept _ h
      · rw [shape, List.map_append]
        exact List.mem_append_right _ h

private theorem Progress.length_le {starts done pending : List α} {keys : Finset κ}
    (progress : Progress key next starts done pending)
    (occur : ∀ a ∈ done ++ pending, key a ∈ keys) : (done ++ pending).length ≤ keys.card := by
  rw [← List.length_map key, ← List.toFinset_card_of_nodup progress.nodup]
  apply Finset.card_le_card
  intro k hk
  obtain ⟨c, hc, rfl⟩ := List.mem_map.mp (List.mem_toFinset.mp hk)
  exact occur c hc

private theorem explore_progress (fuel : Nat) {starts done pending : List α}
    (progress : Progress key next starts done pending) :
    ∃ done' pending', explore key next fuel (done ++ pending) pending = done' ++ pending' ∧
      Progress key next starts done' pending' ∧
      (pending' = [] ∨ done'.length = done.length + fuel) := by
  induction fuel generalizing done pending with
  | zero => exact ⟨done, pending, rfl, progress, Or.inr rfl⟩
  | succ fuel ih =>
    cases pending with
    | nil => exact ⟨done, [], rfl, progress, Or.inl rfl⟩
    | cons a pending =>
      obtain ⟨done', pending', equal, later, finish⟩ := ih progress.advance
      refine ⟨done', pending', ?_, later, ?_⟩
      · rw [← equal, explore]
        simp
      · refine finish.imp id fun h => ?_
        rw [h, List.length_append, List.length_singleton]
        omega

private theorem progress_start (key : α → κ) (next : α → List α) (starts : List α) :
    Progress key next starts [] (fresh key [] starts) := by
  refine ⟨?_, nodup_keys_fresh _ _, ?_, by simp⟩
  · apply Grown.nil.append
    exact fun b hb => Or.inl (mem_of_mem_fresh hb).1
  · intro a ha
    simpa using key_mem_fresh key [] ha

private theorem reached_progress (key : α → κ) (next : α → List α) (bound : Nat) (starts : List α) :
    ∃ done pending, reached key next bound starts = done ++ pending ∧
      Progress key next starts done pending ∧ (pending = [] ∨ done.length = bound) := by
  obtain ⟨done, pending, equal, progress, finish⟩ :=
    explore_progress bound (progress_start key next starts)
  exact ⟨done, pending, equal, progress, by simpa using finish⟩

theorem nodup_keys_reached (key : α → κ) (next : α → List α) (bound : Nat) (starts : List α) :
    ((reached key next bound starts).map key).Nodup := by
  obtain ⟨done, pending, equal, progress, _⟩ := reached_progress key next bound starts
  exact equal ▸ progress.nodup

theorem grown_reached (key : α → κ) (next : α → List α) (bound : Nat) (starts : List α) :
    Grown next starts (reached key next bound starts) := by
  obtain ⟨done, pending, equal, progress, _⟩ := reached_progress key next bound starts
  exact equal ▸ progress.grown

theorem start_mem_reached (key : α → κ) (next : α → List α) (bound : Nat) {starts : List α}
    {a : α} (mem : a ∈ starts) : key a ∈ (reached key next bound starts).map key := by
  obtain ⟨done, pending, equal, progress, _⟩ := reached_progress key next bound starts
  exact equal ▸ progress.starts_found a mem

variable {bound : Nat} {starts : List α}

theorem reached_of_next_nil (stop : ∀ a, next a = []) :
    reached key next bound starts = fresh key [] starts := by
  have kept (fuel : Nat) (found pending : List α) : explore key next fuel found pending =
      found := by
    induction fuel generalizing pending with
    | zero => rfl
    | succ fuel ih =>
      cases pending with
      | nil => rfl
      | cons a pending => simp [explore, stop, fresh, ih]
  exact kept bound _ _

theorem closed_reached (keys : Finset κ) (fits : keys.card ≤ bound)
    (occur : ∀ a ∈ reached key next bound starts, key a ∈ keys) {a b : α}
    (mem : a ∈ reached key next bound starts) (edge : b ∈ next a) :
    key b ∈ (reached key next bound starts).map key := by
  obtain ⟨done, pending, equal, progress, finish⟩ := reached_progress key next bound starts
  rw [equal] at mem occur ⊢
  have few := progress.length_le occur
  have exhausted : pending = [] := by
    rcases finish with h | h
    · exact h
    · rw [List.length_append] at few
      exact List.eq_nil_of_length_eq_zero (by omega)
  rw [exhausted, List.append_nil] at mem
  exact progress.closed a mem b edge

theorem mem_reached_iff [DecidableEq α] (items : Finset α) (fits : items.card ≤ bound)
    (starts_mem : ∀ a ∈ starts, a ∈ items) (next_mem : ∀ a ∈ items, ∀ b ∈ next a, b ∈ items)
    {a : α} : a ∈ reached id next bound starts ↔
      ∃ s ∈ starts, Relation.ReflTransGen (fun x y => y ∈ next x) s a := by
  have grown := grown_reached id next bound starts
  have inside : ∀ b ∈ reached id next bound starts, b ∈ items := by
    refine grown.induction (Q := fun b => b ∈ items) ?_ ?_
    · exact fun b _ hb => starts_mem b hb
    · exact fun b _ hb c hc _ => next_mem b hb c hc
  constructor
  · intro mem
    refine grown.induction
      (Q := fun b => ∃ s ∈ starts, Relation.ReflTransGen (fun x y => y ∈ next x) s b) ?_ ?_ a mem
    · exact fun b _ hb => ⟨b, hb, .refl⟩
    · rintro b _ ⟨s, hs, way⟩ c hc _
      exact ⟨s, hs, way.tail hc⟩
  · rintro ⟨s, hs, way⟩
    induction way with
    | refl => simpa using start_mem_reached id next bound hs
    | tail _ edge ih => simpa using closed_reached items fits inside ih edge

section Ends

/-- The search without a bound: the first pending item is looked at, until none is left. From the
items found and those still pending the search ends with the last list. -/
inductive Ends (key : α → κ) (next : α → List α) : List α → List α → List α → Prop
  | done (found : List α) : Ends key next found [] found
  | look {found pending result : List α} {a : α}
      (rest : Ends key next (found ++ fresh key (found.map key) (next a))
        (pending ++ fresh key (found.map key) (next a)) result) :
      Ends key next found (a :: pending) result

private theorem Ends.found_prefix {found pending result : List α}
    (ends : Ends key next found pending result) : found <+: result := by
  induction ends with
  | done found => exact List.prefix_rfl
  | look _ ih => exact (List.prefix_append _ _).trans ih

theorem Ends.explore_eq {fuel : Nat} {found pending result : List α}
    (ends : Ends key next found pending result)
    (enough : result.length + pending.length ≤ found.length + fuel) :
    explore key next fuel found pending = result := by
  induction ends generalizing fuel with
  | done found => cases fuel <;> rfl
  | look rest ih =>
    have grown := rest.found_prefix.length_le
    simp only [List.length_append, List.length_cons] at grown enough
    cases fuel with
    | zero => omega
    | succ fuel =>
      apply ih
      simp only [List.length_append]
      omega

private theorem ends_explore {keys : Finset κ} {fuel : Nat} {starts done pending : List α}
    (progress : Progress key next starts done pending) (fits : keys.card ≤ done.length + fuel)
    (occur : ∀ a ∈ explore key next fuel (done ++ pending) pending, key a ∈ keys) :
    Ends key next (done ++ pending) pending (explore key next fuel (done ++ pending) pending) := by
  induction fuel generalizing done pending with
  | zero =>
    have few := progress.length_le occur
    rw [List.length_append] at few
    obtain rfl : pending = [] := List.eq_nil_of_length_eq_zero (by omega)
    exact .done _
  | succ fuel ih =>
    cases pending with
    | nil => exact .done _
    | cons a pending =>
      have shape (added : List α) :
          (done ++ [a]) ++ (pending ++ added) = (done ++ a :: pending) ++ added := by simp
      have later := ih progress.advance (by rw [List.length_append, List.length_singleton]; omega)
      rw [shape] at later
      exact .look (later occur)

theorem ends_reached (keys : Finset κ) (fits : keys.card ≤ bound)
    (occur : ∀ a ∈ reached key next bound starts, key a ∈ keys) :
    Ends key next (fresh key [] starts) (fresh key [] starts) (reached key next bound starts) :=
  ends_explore (progress_start key next starts) (by simpa using fits) occur

private theorem fresh_map {β : Type u} {key' : β → κ} {f : α → β} (keys : ∀ a, key' (f a) = key a)
    (known : List κ) (items : List α) :
    fresh key' known (items.map f) = (fresh key known items).map f := by
  induction items generalizing known with
  | nil => rfl
  | cons a items ih =>
    rw [List.map_cons, fresh, fresh, keys a, ih known, ih]
    split
    · rfl
    · rw [List.map_cons]

theorem Ends.map {β : Type u} {key' : β → κ} {next' : β → List β} {f : α → β}
    {found pending result : List α} (ends : Ends key next found pending result)
    (keys : ∀ a, key' (f a) = key a) (commutes : ∀ a ∈ result, next' (f a) = (next a).map f)
    (known : ∀ a ∈ pending, a ∈ found) :
    Ends key' next' (found.map f) (pending.map f) (result.map f) := by
  induction ends with
  | done found => exact .done _
  | @look found pending result a rest ih =>
    have mem : a ∈ result :=
      rest.found_prefix.subset (List.mem_append_left _ (known a List.mem_cons_self))
    have later := ih commutes fun b hb => List.mem_append.mpr
      ((List.mem_append.mp hb).imp_left fun hb => known b (List.mem_cons_of_mem a hb))
    have names : (found.map f).map key' = found.map key := by
      rw [List.map_map]
      exact List.map_congr_left fun b _ => keys b
    refine .look ?_
    rw [commutes a mem, names, fresh_map keys]
    simpa only [List.map_append] using later

end Ends

end LanguageTheory.Discovery

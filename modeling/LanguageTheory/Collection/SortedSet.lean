/-!
Finite sets listed in increasing order. Since the list is strictly increasing, a set has only one
representation: two sorted sets with the same members are equal (`ext`).
-/

set_option autoImplicit false
set_option relaxedAutoImplicit false

namespace LanguageTheory

universe u

/-- A strictly increasing list, read as a set. -/
structure SortedSet (α : Type u) [LT α] where
  toList : List α
  increasing : toList.Pairwise (· < ·)

namespace SortedSet

variable {α : Type u} [LT α]

instance [DecidableEq α] : DecidableEq (SortedSet α) := fun s t =>
  decidable_of_iff (s.toList = t.toList) (by cases s; cases t; simp)

instance : Membership α (SortedSet α) where
  mem s a := a ∈ s.toList

instance [DecidableEq α] (a : α) (s : SortedSet α) : Decidable (a ∈ s) :=
  inferInstanceAs (Decidable (a ∈ s.toList))

@[simp] theorem mem_toList {a : α} {s : SortedSet α} : a ∈ s.toList ↔ a ∈ s := Iff.rfl

def empty : SortedSet α := ⟨[], List.Pairwise.nil⟩

instance : Inhabited (SortedSet α) := ⟨empty⟩

@[simp] theorem not_mem_empty (a : α) : ¬ a ∈ (empty : SortedSet α) := List.not_mem_nil

def singleton (a : α) : SortedSet α := ⟨[a], List.pairwise_singleton _ a⟩

@[simp] theorem mem_singleton {a b : α} : a ∈ singleton b ↔ a = b := List.mem_singleton

def isEmpty (s : SortedSet α) : Bool := s.toList.isEmpty

def size (s : SortedSet α) : Nat := s.toList.length

def filter (p : α → Bool) (s : SortedSet α) : SortedSet α :=
  ⟨s.toList.filter p, s.increasing.sublist List.filter_sublist⟩

@[simp] theorem mem_filter {p : α → Bool} {s : SortedSet α} {a : α} :
    a ∈ s.filter p ↔ a ∈ s ∧ p a = true := List.mem_filter

def least? (s : SortedSet α) : Option α := s.toList.head?

theorem isEmpty_eq_false_iff {s : SortedSet α} : s.isEmpty = false ↔ ∃ a, a ∈ s := by
  rw [isEmpty, List.isEmpty_eq_false_iff]
  exact ⟨List.exists_mem_of_ne_nil s.toList, fun ⟨_, mem⟩ => List.ne_nil_of_mem mem⟩

theorem least?_mem {s : SortedSet α} {a : α} (least : s.least? = some a) : a ∈ s :=
  List.mem_of_head? least

theorem exists_least? {s : SortedSet α} {a : α} (mem : a ∈ s) : ∃ b, s.least? = some b := by
  rcases s with ⟨_ | ⟨b, rest⟩, _⟩
  · exact absurd mem List.not_mem_nil
  · exact ⟨b, rfl⟩

theorem eq_of_toList_eq {s t : SortedSet α} (lists : s.toList = t.toList) : s = t := by
  cases s
  cases t
  cases lists
  rfl

theorem nodup [Std.Irrefl (α := α) (· < ·)] (s : SortedSet α) : s.toList.Nodup := by
  refine List.Pairwise.imp ?_ s.increasing
  intro a b hab heq
  exact Std.Irrefl.irrefl (r := (· < ·)) a (heq ▸ hab)

theorem ext [Std.Irrefl (α := α) (· < ·)] [Trans (α := α) (β := α) (γ := α) (· < ·) (· < ·) (· < ·)]
    {s t : SortedSet α} (same : ∀ a, a ∈ s ↔ a ∈ t) : s = t := by
  apply eq_of_toList_eq
  refine List.Perm.eq_of_pairwise ?_ s.increasing t.increasing ?_
  · intro a b _ _ hab hba
    exact absurd (Std.lt_trans hab hba) (Std.Irrefl.irrefl (r := (· < ·)) a)
  · exact (List.perm_ext_iff_of_nodup s.nodup t.nodup).2 same

variable [DecidableLT α]

/-- Puts an element into an increasing list, unless it is there already. -/
def place (a : α) : List α → List α
  | [] => [a]
  | b :: rest => if a < b then a :: b :: rest else if b < a then b :: place a rest else b :: rest

variable [Std.Trichotomous (α := α) (· < ·)]

private theorem mem_place {a b : α} {l : List α} : a ∈ place b l ↔ a ∈ l ∨ a = b := by
  induction l with
  | nil => simp [place]
  | cons c rest ih =>
    unfold place
    split
    · simp only [List.mem_cons]
      exact ⟨fun h => h.elim Or.inr Or.inl, fun h => h.elim Or.inr Or.inl⟩
    · rename_i hbc
      split
      · simp only [List.mem_cons, ih, or_assoc]
      · rename_i hcb
        have same : b = c := Std.Trichotomous.trichotomous (r := (· < ·)) b c hbc hcb
        simp only [List.mem_cons, same]
        exact ⟨Or.inl, fun h => h.elim id Or.inl⟩

variable [Trans (α := α) (β := α) (γ := α) (· < ·) (· < ·) (· < ·)]

private theorem increasing_place {a : α} {l : List α} (sorted : l.Pairwise (· < ·)) :
    (place a l).Pairwise (· < ·) := by
  induction l with
  | nil => exact List.pairwise_singleton _ a
  | cons b rest ih =>
    have below := (List.pairwise_cons.1 sorted).1
    unfold place
    split
    · rename_i hab
      refine List.pairwise_cons.2 ⟨?_, sorted⟩
      intro c hc
      rcases List.mem_cons.1 hc with rfl | hc
      · exact hab
      · exact Std.lt_trans hab (below c hc)
    · split
      · rename_i hba
        refine List.pairwise_cons.2 ⟨?_, ih (List.pairwise_cons.1 sorted).2⟩
        intro c hc
        rcases mem_place.1 hc with hc | rfl
        · exact below c hc
        · exact hba
      · exact sorted

def insert (s : SortedSet α) (a : α) : SortedSet α :=
  ⟨place a s.toList, increasing_place s.increasing⟩

@[simp] theorem mem_insert {s : SortedSet α} {a b : α} : a ∈ s.insert b ↔ a ∈ s ∨ a = b :=
  mem_place

def insertMany (s : SortedSet α) (l : List α) : SortedSet α := l.foldl insert s

@[simp] theorem mem_insertMany {s : SortedSet α} {l : List α} {a : α} :
    a ∈ s.insertMany l ↔ a ∈ s ∨ a ∈ l := by
  unfold insertMany
  induction l generalizing s with
  | nil => simp
  | cons b l ih => rw [List.foldl_cons, ih, mem_insert, List.mem_cons, or_assoc]

def ofList (l : List α) : SortedSet α := empty.insertMany l

@[simp] theorem mem_ofList {l : List α} {a : α} : a ∈ ofList l ↔ a ∈ l := by
  simp [ofList]

def union (s t : SortedSet α) : SortedSet α := s.insertMany t.toList

@[simp] theorem mem_union {s t : SortedSet α} {a : α} : a ∈ s.union t ↔ a ∈ s ∨ a ∈ t :=
  mem_insertMany

end SortedSet

end LanguageTheory

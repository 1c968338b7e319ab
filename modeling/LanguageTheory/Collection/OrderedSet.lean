/-!
Finite sets that remember the order in which their members came. Inserting a member that is
already there changes nothing, so every member stands at the place of its first insertion.
Membership is the view through which the operations are described; two sets with the same members
are `Same`, whatever their order.
-/

set_option autoImplicit false
set_option relaxedAutoImplicit false

namespace LanguageTheory

universe u v

/-- A list without repetitions, read as a set that is listed in order of insertion. -/
structure OrderedSet (α : Type u) where
  toList : List α
  nodup : toList.Nodup

namespace OrderedSet

variable {α : Type u} {β : Type v}

instance [DecidableEq α] : DecidableEq (OrderedSet α) := fun s t =>
  decidable_of_iff (s.toList = t.toList) (by cases s; cases t; simp)

instance : Membership α (OrderedSet α) where
  mem s a := a ∈ s.toList

instance [DecidableEq α] (a : α) (s : OrderedSet α) : Decidable (a ∈ s) :=
  inferInstanceAs (Decidable (a ∈ s.toList))

@[simp] theorem mem_toList {a : α} {s : OrderedSet α} : a ∈ s.toList ↔ a ∈ s := Iff.rfl

theorem eq_of_toList_eq {s t : OrderedSet α} (lists : s.toList = t.toList) : s = t := by
  cases s
  cases t
  cases lists
  rfl

def empty : OrderedSet α := ⟨[], List.nodup_nil⟩

instance : Inhabited (OrderedSet α) := ⟨empty⟩

@[simp] theorem not_mem_empty (a : α) : ¬ a ∈ (empty : OrderedSet α) := List.not_mem_nil

def size (s : OrderedSet α) : Nat := s.toList.length

def filter (p : α → Bool) (s : OrderedSet α) : OrderedSet α :=
  ⟨s.toList.filter p, s.nodup.sublist List.filter_sublist⟩

@[simp] theorem mem_filter {p : α → Bool} {s : OrderedSet α} {a : α} :
    a ∈ s.filter p ↔ a ∈ s ∧ p a = true := List.mem_filter

/-- Both sets have the same members; the order does not matter. -/
def Same (s t : OrderedSet α) : Prop :=
  (∀ a ∈ s.toList, a ∈ t) ∧ ∀ a ∈ t.toList, a ∈ s

theorem same_iff {s t : OrderedSet α} : s.Same t ↔ ∀ a, a ∈ s ↔ a ∈ t :=
  ⟨fun h a => ⟨h.1 a, h.2 a⟩, fun h => ⟨fun a => (h a).1, fun a => (h a).2⟩⟩

variable [DecidableEq α]

instance (s t : OrderedSet α) : Decidable (s.Same t) :=
  inferInstanceAs (Decidable (_ ∧ _))

/-- Adds a member at the end, unless it is there already. -/
def insert (s : OrderedSet α) (a : α) : OrderedSet α :=
  if h : a ∈ s then s
  else ⟨s.toList ++ [a], by
    refine List.nodup_append.2 ⟨s.nodup, by simp, ?_⟩
    intro b hb c hc hbc
    rw [List.mem_singleton] at hc
    exact h (hc ▸ hbc ▸ hb)⟩

@[simp] theorem mem_insert {s : OrderedSet α} {a b : α} : a ∈ s.insert b ↔ a ∈ s ∨ a = b := by
  unfold insert
  split
  · rename_i h
    exact ⟨Or.inl, fun hab => hab.elim id (fun e => e ▸ h)⟩
  · change a ∈ s.toList ++ [b] ↔ _
    simp

/-- The members of a set followed by the further elements of a list. -/
def insertMany (s : OrderedSet α) (l : List α) : OrderedSet α := l.foldl insert s

@[simp] theorem mem_insertMany {s : OrderedSet α} {l : List α} {a : α} :
    a ∈ s.insertMany l ↔ a ∈ s ∨ a ∈ l := by
  unfold insertMany
  induction l generalizing s with
  | nil => simp
  | cons b l ih => rw [List.foldl_cons, ih, mem_insert, List.mem_cons, or_assoc]

theorem insertMany_of_subset {s : OrderedSet α} {l : List α} (known : ∀ a ∈ l, a ∈ s) :
    s.insertMany l = s := by
  induction l with
  | nil => rfl
  | cons a l ih =>
    rw [List.forall_mem_cons] at known
    have kept : s.insert a = s := dif_pos known.1
    change (s.insert a).insertMany l = s
    rw [kept]
    exact ih known.2

private theorem toList_insertMany_of_nodup {s : OrderedSet α} {l : List α}
    (distinct : (s.toList ++ l).Nodup) :
    (s.insertMany l).toList = s.toList ++ l := by
  induction l generalizing s with
  | nil => simp [insertMany]
  | cons a l ih =>
    have new : a ∉ s := by
      intro old
      rw [List.nodup_append] at distinct
      exact distinct.2.2 a old a (by simp) rfl
    have grown : (s.insert a).toList = s.toList ++ [a] := by rw [insert, dif_neg new]
    have rest := ih (s := s.insert a) (by rw [grown]; simpa using distinct)
    rw [grown, List.append_assoc, List.singleton_append] at rest
    exact rest

theorem head?_insertMany {s : OrderedSet α} {l : List α} :
    (s.insertMany l).toList.head? = (s.toList ++ l).head? := by
  induction l generalizing s with
  | nil => simp [insertMany]
  | cons a l ih =>
    have step : (s.insert a).toList.head? = (s.toList ++ [a]).head? := by
      unfold insert
      split
      · rename_i known
        obtain ⟨first, rest, listed⟩ := List.exists_cons_of_ne_nil (List.ne_nil_of_mem known)
        rw [listed]
        rfl
      · rfl
    change ((s.insert a).insertMany l).toList.head? = _
    rw [ih, List.head?_append, step, ← List.head?_append, List.append_assoc, List.singleton_append]

/-- The set of the members of a list, each at the place where it first occurs. -/
def ofList (l : List α) : OrderedSet α := empty.insertMany l

@[simp] theorem mem_ofList {l : List α} {a : α} : a ∈ ofList l ↔ a ∈ l := by
  simp [ofList]

theorem toList_ofList_eq_iff {l : List α} : (ofList l).toList = l ↔ l.Nodup :=
  ⟨fun kept => kept ▸ (ofList l).nodup,
    fun distinct => toList_insertMany_of_nodup (s := empty) distinct⟩

@[simp] theorem ofList_toList (s : OrderedSet α) : ofList s.toList = s :=
  eq_of_toList_eq (toList_ofList_eq_iff.mpr s.nodup)

/-- The members of the first set, then those that only the second has. -/
def union (s t : OrderedSet α) : OrderedSet α := s.insertMany t.toList

@[simp] theorem mem_union {s t : OrderedSet α} {a : α} : a ∈ s.union t ↔ a ∈ s ∨ a ∈ t :=
  mem_insertMany

def map [DecidableEq β] (f : α → β) (s : OrderedSet α) : OrderedSet β :=
  ofList (s.toList.map f)

omit [DecidableEq α] in
@[simp] theorem mem_map [DecidableEq β] {f : α → β} {s : OrderedSet α} {b : β} :
    b ∈ s.map f ↔ ∃ a, a ∈ s ∧ f a = b := by
  simp [map]

end OrderedSet

end LanguageTheory

/-!
Finite tables that remember the order in which their keys came. Setting the value of a key that is
there keeps its place; a new key goes to the end. `get?` is the view through which the operations
are described.
-/

set_option autoImplicit false
set_option relaxedAutoImplicit false

namespace LanguageTheory

universe u v w

/-- A list of entries with pairwise distinct keys. -/
structure OrderedTable (κ : Type u) (ν : Type v) where
  entries : List (κ × ν)
  nodup : (entries.map Prod.fst).Nodup

namespace OrderedTable

variable {κ : Type u} {ν : Type v} {μ : Type w}

instance [DecidableEq κ] [DecidableEq ν] : DecidableEq (OrderedTable κ ν) := fun s t =>
  decidable_of_iff (s.entries = t.entries) (by cases s; cases t; simp)

theorem eq_of_entries_eq {s t : OrderedTable κ ν} (entries : s.entries = t.entries) : s = t := by
  cases s
  cases t
  cases entries
  rfl

def empty : OrderedTable κ ν := ⟨[], List.nodup_nil⟩

instance : Inhabited (OrderedTable κ ν) := ⟨empty⟩

def keys (t : OrderedTable κ ν) : List κ := t.entries.map Prod.fst

def values (t : OrderedTable κ ν) : List ν := t.entries.map Prod.snd

def size (t : OrderedTable κ ν) : Nat := t.entries.length

def filter (p : κ → ν → Bool) (t : OrderedTable κ ν) : OrderedTable κ ν :=
  ⟨t.entries.filter fun e => p e.1 e.2, t.nodup.sublist (List.filter_sublist.map Prod.fst)⟩

def mapValues (f : κ → ν → μ) (t : OrderedTable κ ν) : OrderedTable κ μ :=
  ⟨t.entries.map fun e => (e.1, f e.1 e.2), by
    have h : ((t.entries.map fun e => (e.1, f e.1 e.2)).map Prod.fst) = t.entries.map Prod.fst := by
      simp
    exact h ▸ t.nodup⟩

theorem keys_mapValues (t : OrderedTable κ ν) (f : κ → ν → μ) : (t.mapValues f).keys = t.keys := by
  simp [keys, mapValues]

theorem mapValues_eq_self {t : OrderedTable κ ν} {f : κ → ν → ν}
    (kept : ∀ e ∈ t.entries, f e.1 e.2 = e.2) : t.mapValues f = t := by
  have unchanged : t.entries.map (fun e => (e.1, f e.1 e.2)) = t.entries.map id :=
    List.map_congr_left fun e mem => Prod.ext rfl (kept e mem)
  exact eq_of_entries_eq (unchanged.trans (List.map_id _))

theorem size_mapValues (t : OrderedTable κ ν) (f : κ → ν → μ) : (t.mapValues f).size = t.size :=
  List.length_map _

variable [DecidableEq κ]

/-- The value that the first entry of a key holds. -/
def lookUp (k : κ) : List (κ × ν) → Option ν
  | [] => none
  | e :: entries => if e.1 = k then some e.2 else lookUp k entries

/-- The entries with the value of one key replaced, or with a new entry at the end. -/
def setEntry (k : κ) (v : ν) : List (κ × ν) → List (κ × ν)
  | [] => [(k, v)]
  | e :: entries => if e.1 = k then (k, v) :: entries else e :: setEntry k v entries

private theorem mem_keys_setEntry {k j : κ} {v : ν} {entries : List (κ × ν)} :
    j ∈ (setEntry k v entries).map Prod.fst ↔ j ∈ entries.map Prod.fst ∨ j = k := by
  induction entries with
  | nil => simp [setEntry]
  | cons e entries ih =>
    by_cases hek : e.1 = k
    · simp only [setEntry, hek, if_true, List.map_cons, List.mem_cons]
      constructor
      · exact Or.inl
      · exact fun h => h.elim id Or.inl
    · simp only [setEntry, hek, if_false, List.map_cons, List.mem_cons, ih, or_assoc]

private theorem nodup_keys_setEntry {k : κ} {v : ν} {entries : List (κ × ν)}
    (distinct : (entries.map Prod.fst).Nodup) :
    ((setEntry k v entries).map Prod.fst).Nodup := by
  induction entries with
  | nil => simp [setEntry]
  | cons e entries ih =>
    rw [List.map_cons, List.nodup_cons] at distinct
    by_cases hek : e.1 = k
    · simp only [setEntry, hek, if_true, List.map_cons, List.nodup_cons]
      exact hek ▸ distinct
    · simp only [setEntry, hek, if_false, List.map_cons, List.nodup_cons]
      refine ⟨?_, ih distinct.2⟩
      rw [mem_keys_setEntry]
      exact fun h => h.elim distinct.1 hek

private theorem lookUp_setEntry (k j : κ) (v : ν) (entries : List (κ × ν)) :
    lookUp j (setEntry k v entries) = if j = k then some v else lookUp j entries := by
  induction entries with
  | nil => simp [setEntry, lookUp, eq_comm]
  | cons e entries ih =>
    by_cases hek : e.1 = k
    · by_cases hjk : j = k
      · simp [setEntry, lookUp, hek, hjk]
      · have hkj : ¬ k = j := fun h => hjk h.symm
        simp [setEntry, lookUp, hek, hjk, hkj]
    · by_cases hej : e.1 = j
      · have hjk : ¬ j = k := fun h => hek (hej.trans h)
        simp [setEntry, lookUp, hej, hjk]
      · simp [setEntry, lookUp, hek, hej, ih]

theorem lookUp_isSome_iff {k : κ} {entries : List (κ × ν)} :
    (lookUp k entries).isSome = true ↔ k ∈ entries.map Prod.fst := by
  induction entries with
  | nil => simp [lookUp]
  | cons e entries ih =>
    by_cases hek : e.1 = k
    · simp [lookUp, hek]
    · have hke : ¬ k = e.1 := fun h => hek h.symm
      simp only [lookUp, hek, if_false, ih, List.map_cons, List.mem_cons, hke, false_or]

theorem lookUp_of_mem {entries : List (κ × ν)} (distinct : (entries.map Prod.fst).Nodup)
    {k : κ} {v : ν} (mem : (k, v) ∈ entries) : lookUp k entries = some v := by
  induction entries with
  | nil => simp at mem
  | cons e entries ih =>
    rw [List.map_cons, List.nodup_cons] at distinct
    rcases List.mem_cons.mp mem with rfl | mem
    · simp [lookUp]
    · have later : ¬ e.1 = k := by
        rintro rfl
        exact distinct.1 (List.mem_map.mpr ⟨_, mem, rfl⟩)
      rw [lookUp, if_neg later]
      exact ih distinct.2 mem

theorem mem_of_lookUp {entries : List (κ × ν)} {k : κ} {v : ν}
    (found : lookUp k entries = some v) : (k, v) ∈ entries := by
  induction entries with
  | nil => simp [lookUp] at found
  | cons e entries ih =>
    unfold lookUp at found
    split at found
    · rename_i hek
      obtain rfl := Option.some.inj found
      exact hek ▸ List.mem_cons_self
    · exact List.mem_cons_of_mem e (ih found)

theorem setEntry_of_not_mem {entries : List (κ × ν)} {k : κ} {v : ν}
    (new : k ∉ entries.map Prod.fst) : setEntry k v entries = entries ++ [(k, v)] := by
  induction entries with
  | nil => rfl
  | cons e entries ih =>
    rw [List.map_cons, List.mem_cons, not_or] at new
    rw [setEntry, if_neg (fun h => new.1 h.symm), ih new.2, List.cons_append]

private theorem keys_setEntry_of_mem {entries : List (κ × ν)} {k : κ} {v : ν}
    (known : k ∈ entries.map Prod.fst) :
    (setEntry k v entries).map Prod.fst = entries.map Prod.fst := by
  induction entries with
  | nil => simp at known
  | cons e entries ih =>
    by_cases hek : e.1 = k
    · rw [setEntry, if_pos hek, List.map_cons, List.map_cons, hek]
    · rw [List.map_cons, List.mem_cons] at known
      have later := known.resolve_left fun h => hek h.symm
      rw [setEntry, if_neg hek, List.map_cons, List.map_cons, ih later]

private theorem setEntry_setEntry {entries : List (κ × ν)} {k : κ} {v w : ν} :
    setEntry k w (setEntry k v entries) = setEntry k w entries := by
  induction entries with
  | nil => simp [setEntry]
  | cons e entries ih =>
    by_cases hek : e.1 = k
    · simp [setEntry, hek]
    · simp [setEntry, hek, ih]

def get? (t : OrderedTable κ ν) (k : κ) : Option ν := lookUp k t.entries

@[simp] theorem get?_empty (k : κ) : (empty : OrderedTable κ ν).get? k = none := rfl

private theorem get?_isSome_iff {t : OrderedTable κ ν} {k : κ} :
    (t.get? k).isSome = true ↔ k ∈ t.keys := lookUp_isSome_iff

theorem get?_eq_some_iff {t : OrderedTable κ ν} {k : κ} {v : ν} :
    t.get? k = some v ↔ (k, v) ∈ t.entries :=
  ⟨mem_of_lookUp, lookUp_of_mem t.nodup⟩

theorem mem_keys_iff {t : OrderedTable κ ν} {k : κ} : k ∈ t.keys ↔ ∃ v, t.get? k = some v := by
  rw [← get?_isSome_iff, Option.isSome_iff_exists]

theorem mem_keys_of_get? {t : OrderedTable κ ν} {k : κ} {v : ν} (found : t.get? k = some v) :
    k ∈ t.keys := mem_keys_iff.mpr ⟨v, found⟩

theorem get?_eq_none_iff {t : OrderedTable κ ν} {k : κ} : t.get? k = none ↔ k ∉ t.keys := by
  rw [mem_keys_iff, Option.eq_none_iff_forall_ne_some, not_exists]

theorem get?_filter_eq_some_iff {t : OrderedTable κ ν} {p : κ → ν → Bool} {k : κ} {v : ν} :
    (t.filter p).get? k = some v ↔ t.get? k = some v ∧ p k v = true := by
  rw [get?_eq_some_iff, get?_eq_some_iff]
  exact List.mem_filter

theorem get?_mapValues (t : OrderedTable κ ν) (f : κ → ν → μ) (k : κ) :
    (t.mapValues f).get? k = (t.get? k).map (f k) := by
  change lookUp k (t.entries.map fun e => (e.1, f e.1 e.2)) = (lookUp k t.entries).map (f k)
  induction t.entries with
  | nil => rfl
  | cons e entries ih =>
    by_cases hek : e.1 = k
    · simp [lookUp, hek]
    · simpa [lookUp, hek] using ih

/-- Sets the value of a key, in its place if it has one and at the end otherwise. -/
def insert (t : OrderedTable κ ν) (k : κ) (v : ν) : OrderedTable κ ν :=
  ⟨setEntry k v t.entries, nodup_keys_setEntry t.nodup⟩

theorem get?_insert (t : OrderedTable κ ν) (k j : κ) (v : ν) :
    (t.insert k v).get? j = if j = k then some v else t.get? j :=
  lookUp_setEntry k j v t.entries

theorem keys_insert_of_not_mem {t : OrderedTable κ ν} {k : κ} {v : ν} (new : k ∉ t.keys) :
    (t.insert k v).keys = t.keys ++ [k] := by
  have entries : (t.insert k v).entries = t.entries ++ [(k, v)] := setEntry_of_not_mem new
  rw [keys, entries, List.map_append]
  rfl

theorem insert_insert {t : OrderedTable κ ν} {k : κ} {v w : ν} :
    (t.insert k v).insert k w = t.insert k w := eq_of_entries_eq setEntry_setEntry

theorem keys_insert_of_mem {t : OrderedTable κ ν} {k : κ} {v : ν} (known : k ∈ t.keys) :
    (t.insert k v).keys = t.keys := keys_setEntry_of_mem known

theorem eq_of_keys_eq {s t : OrderedTable κ ν} (keys : s.keys = t.keys)
    (values : ∀ k ∈ s.keys, s.get? k = t.get? k) : s = t := by
  have described (u : OrderedTable κ ν) :
      (u.entries.map fun e => (e.1, some e.2)) = u.keys.map fun k => (k, u.get? k) := by
    rw [OrderedTable.keys, List.map_map]
    apply List.map_congr_left
    intro e mem
    have found : u.get? e.1 = some e.2 := get?_eq_some_iff.mpr mem
    simp [found]
  have entries : s.entries = t.entries := by
    apply List.map_inj_right _ |>.mp
    · rw [described s, described t, ← keys]
      apply List.map_congr_left
      intro k mem
      rw [values k mem]
    · intro e f same
      simpa [Prod.ext_iff] using same
  exact eq_of_entries_eq entries

@[simp] theorem mem_keys_insert {t : OrderedTable κ ν} {k j : κ} {v : ν} :
    j ∈ (t.insert k v).keys ↔ j ∈ t.keys ∨ j = k := mem_keys_setEntry

def insertMany (t : OrderedTable κ ν) (entries : List (κ × ν)) : OrderedTable κ ν :=
  entries.foldl (fun t e => t.insert e.1 e.2) t

/-- The table of a list of entries; a key that comes again gets the later value. -/
def ofList (entries : List (κ × ν)) : OrderedTable κ ν := empty.insertMany entries

@[simp] theorem mem_keys_insertMany {t : OrderedTable κ ν} {entries : List (κ × ν)} {k : κ} :
    k ∈ (t.insertMany entries).keys ↔ k ∈ t.keys ∨ k ∈ entries.map Prod.fst := by
  unfold insertMany
  induction entries generalizing t with
  | nil => simp
  | cons e entries ih =>
    rw [List.foldl_cons, ih, mem_keys_insert, List.map_cons, List.mem_cons, or_assoc]

@[simp] theorem mem_keys_ofList {entries : List (κ × ν)} {k : κ} :
    k ∈ (ofList entries).keys ↔ k ∈ entries.map Prod.fst :=
  mem_keys_insertMany.trans (or_iff_right List.not_mem_nil)

private theorem get?_insertMany_eq_some_iff {t : OrderedTable κ ν} {entries : List (κ × ν)} {k : κ}
    {v : ν} :
    (t.insertMany entries).get? k = some v ↔
      (∃ before after, entries = before ++ (k, v) :: after ∧ k ∉ after.map Prod.fst) ∨
        (k ∉ entries.map Prod.fst ∧ t.get? k = some v) := by
  unfold insertMany
  induction entries generalizing t with
  | nil => simp
  | cons e entries ih =>
    obtain ⟨j, w⟩ := e
    rw [List.foldl_cons, ih, get?_insert]
    constructor
    · rintro (⟨before, after, rfl, last⟩ | ⟨absent, found⟩)
      · exact Or.inl ⟨(j, w) :: before, after, rfl, last⟩
      · by_cases same : k = j
        · subst same
          rw [if_pos rfl] at found
          obtain rfl := Option.some.inj found
          exact Or.inl ⟨[], entries, rfl, absent⟩
        · rw [if_neg same] at found
          exact Or.inr ⟨by simpa [same] using absent, found⟩
    · rintro (⟨_ | ⟨first, before⟩, after, shape, last⟩ | ⟨absent, found⟩)
      · obtain ⟨same, rfl⟩ := List.cons.inj shape
        obtain ⟨rfl, rfl⟩ := Prod.mk.inj same
        exact Or.inr ⟨last, if_pos rfl⟩
      · exact Or.inl ⟨before, after, (List.cons.inj shape).2, last⟩
      · rw [List.map_cons, List.mem_cons, not_or] at absent
        exact Or.inr ⟨absent.2, (if_neg absent.1).trans found⟩

theorem get?_ofList_eq_some_iff {entries : List (κ × ν)} {k : κ} {v : ν} :
    (ofList entries).get? k = some v ↔
      ∃ before after, entries = before ++ (k, v) :: after ∧ k ∉ after.map Prod.fst := by
  rw [ofList, get?_insertMany_eq_some_iff]
  simp

private theorem entries_insertMany_of_nodup {t : OrderedTable κ ν} {entries : List (κ × ν)}
    (distinct : ((t.entries ++ entries).map Prod.fst).Nodup) :
    (t.insertMany entries).entries = t.entries ++ entries := by
  induction entries generalizing t with
  | nil => simp [insertMany]
  | cons e entries ih =>
    have new : e.1 ∉ t.entries.map Prod.fst := by
      intro old
      rw [List.map_append, List.nodup_append] at distinct
      exact distinct.2.2 e.1 old e.1 (by simp) rfl
    have grown : (t.insert e.1 e.2).entries = t.entries ++ [e] := setEntry_of_not_mem new
    have rest := ih (t := t.insert e.1 e.2) (by rw [grown]; simpa using distinct)
    rw [grown, List.append_assoc, List.singleton_append] at rest
    exact rest

theorem entries_ofList {entries : List (κ × ν)} (distinct : (entries.map Prod.fst).Nodup) :
    (ofList entries).entries = entries := by
  have kept : (insertMany (empty : OrderedTable κ ν) entries).entries = [] ++ entries :=
    entries_insertMany_of_nodup (t := empty) distinct
  simpa [ofList] using kept

@[simp] theorem ofList_entries (t : OrderedTable κ ν) : ofList t.entries = t :=
  eq_of_entries_eq (entries_ofList t.nodup)

/-- Both tables have the same keys, with values related by `r`; the order does not matter. -/
def Same (r : ν → ν → Prop) (s t : OrderedTable κ ν) : Prop :=
  (∀ e ∈ s.entries, ∃ v, t.get? e.1 = some v ∧ r e.2 v) ∧ ∀ k ∈ t.keys, k ∈ s.keys

instance (r : ν → ν → Prop) [∀ a b, Decidable (r a b)] (s t : OrderedTable κ ν) :
    Decidable (s.Same r t) :=
  have (e : κ × ν) : Decidable (∃ v, t.get? e.1 = some v ∧ r e.2 v) :=
    match h : t.get? e.1 with
    | none => isFalse (by simp)
    | some v => decidable_of_iff (r e.2 v) (by simp)
  inferInstanceAs (Decidable (_ ∧ _))

theorem Same.refl {r : ν → ν → Prop} (reflexive : ∀ v, r v v) (t : OrderedTable κ ν) :
    t.Same r t :=
  ⟨fun e mem => ⟨e.2, get?_eq_some_iff.mpr mem, reflexive e.2⟩, fun _ => id⟩

theorem same_of_get?_iff {s t : OrderedTable κ ν}
    (values : ∀ k v, s.get? k = some v ↔ t.get? k = some v) : s.Same (· = ·) t := by
  refine ⟨fun e mem => ⟨e.2, (values e.1 e.2).mp (get?_eq_some_iff.mpr mem), rfl⟩, fun k mem => ?_⟩
  obtain ⟨v, found⟩ := mem_keys_iff.mp mem
  exact mem_keys_of_get? ((values k v).mpr found)

end OrderedTable

end LanguageTheory

import Mathlib.Algebra.Group.Action.Defs
import Mathlib.Algebra.Order.BigOperators.Group.List
import Mathlib.Algebra.Order.Ring.Nat
import Mathlib.Data.List.Perm.Subperm
import LanguageTheory.Grammar.FirstFollow

/-!
Sets of symbols that grow until they meet all demands. A demand asks for members of one set and may
depend on the other sets; a sweep meets the demands one after the other. Sweeps only add members, so
over finitely many symbols they come to an end (`Confined.meets_stabilize`), and then every demand
is met.
-/

set_option autoImplicit false
set_option relaxedAutoImplicit false

namespace LanguageTheory

private theorem SortedSet.size_le_of_subset {s t : SortedSet Symbol} (subset : ∀ a ∈ s, a ∈ t) :
    s.size ≤ t.size := (List.subperm_of_subset s.nodup subset).length_le

private theorem SortedSet.eq_of_subset_of_size_le {s t : SortedSet Symbol} (subset : ∀ a ∈ s, a ∈ t)
    (size : t.size ≤ s.size) : s = t := by
  have same := (List.subperm_of_subset s.nodup subset).perm_of_length_le size
  exact SortedSet.ext fun a => same.mem_iff

namespace SymbolSets

variable {sets s t : SymbolSets}

theorem get?_eq_some_of {symbol : Symbol} (known : symbol ∈ sets.keys) :
    sets.get? symbol = some (sets.of symbol) := by
  obtain ⟨members, found⟩ := OrderedTable.mem_keys_iff.mp known
  rw [of, found, Option.getD_some]

theorem mem_keys_of_mem {symbol a : Symbol} (mem : a ∈ sets.of symbol) : symbol ∈ sets.keys := by
  by_contra unknown
  rw [of, OrderedTable.get?_eq_none_iff.mpr unknown] at mem
  exact SortedSet.not_mem_empty a mem

private theorem eq_of_keys_eq (keys : s.keys = t.keys)
    (same : ∀ symbol, s.of symbol = t.of symbol) :
    s = t := by
  apply OrderedTable.eq_of_keys_eq keys
  intro symbol known
  rw [get?_eq_some_of known, get?_eq_some_of (keys ▸ known), same]

theorem keys_extend {symbol : Symbol} {members : SortedSet Symbol} :
    (sets.extend symbol members).keys = sets.keys := by
  unfold extend
  split
  · rfl
  · rename_i known found
    exact OrderedTable.keys_insert_of_mem (OrderedTable.mem_keys_of_get? found)

theorem mem_extend {symbol other a : Symbol} {members : SortedSet Symbol} :
    a ∈ (sets.extend symbol members).of other ↔
      a ∈ sets.of other ∨ other = symbol ∧ symbol ∈ sets.keys ∧ a ∈ members := by
  unfold extend
  split
  · rename_i unknown
    have missing := OrderedTable.get?_eq_none_iff.mp unknown
    exact ⟨Or.inl, fun h => h.resolve_right fun ⟨_, known, _⟩ => missing known⟩
  · rename_i old found
    have known := OrderedTable.mem_keys_of_get? found
    rw [of, OrderedTable.get?_insert]
    by_cases same : other = symbol
    · subst same
      rw [if_pos rfl, Option.getD_some, SortedSet.mem_union, of, found, Option.getD_some]
      simp [known]
    · rw [if_neg same]
      exact ⟨Or.inl, fun h => h.resolve_right fun ⟨here, _⟩ => same here⟩

/-- Both have sets for the same symbols, and those of the first are contained in those of the
second. -/
structure Below (s t : SymbolSets) : Prop where
  keys : s.keys = t.keys
  subset : ∀ symbol, ∀ a ∈ s.of symbol, a ∈ t.of symbol

private theorem Below.refl (s : SymbolSets) : s.Below s := ⟨rfl, fun _ _ mem => mem⟩

private theorem Below.trans {u : SymbolSets} (first : s.Below t) (second : t.Below u) : s.Below u :=
  ⟨first.keys.trans second.keys,
    fun symbol a mem => second.subset symbol a (first.subset symbol a mem)⟩

private theorem Below.antisymm (first : s.Below t) (second : t.Below s) : s = t :=
  eq_of_keys_eq first.keys fun symbol =>
    SortedSet.ext fun a => ⟨first.subset symbol a, second.subset symbol a⟩

private theorem below_extend {symbol : Symbol} {members : SortedSet Symbol} :
    sets.Below (sets.extend symbol members) :=
  ⟨keys_extend.symm, fun _ _ mem => mem_extend.mpr (Or.inl mem)⟩

def total (sets : SymbolSets) : Nat := (sets.keys.map fun symbol => (sets.of symbol).size).sum

private theorem Below.total_lt (below : s.Below t) (different : t ≠ s) : s.total < t.total := by
  rw [total, total, ← below.keys]
  apply List.sum_lt_sum
  · intro symbol _
    exact SortedSet.size_le_of_subset (below.subset symbol)
  · by_contra none
    refine different (eq_of_keys_eq below.keys fun symbol => ?_).symm
    by_cases known : symbol ∈ s.keys
    · have enough : (t.of symbol).size ≤ (s.of symbol).size := by
        by_contra more
        exact none ⟨symbol, known, not_le.mp more⟩
      exact SortedSet.eq_of_subset_of_size_le (below.subset symbol) enough
    · have missing : symbol ∉ t.keys := below.keys ▸ known
      rw [of, of, OrderedTable.get?_eq_none_iff.mpr known,
        OrderedTable.get?_eq_none_iff.mpr missing]

/-- A symbol whose set has to grow, and by what. -/
abbrev Demand := Symbol × (SymbolSets → SortedSet Symbol)

def sweep (demands : List Demand) (sets : SymbolSets) : SymbolSets :=
  demands.foldl (fun sets d => sets.extend d.1 (d.2 sets)) sets

variable {demands : List Demand}

private theorem sweep_cons (d : Demand) : sweep (d :: demands) sets =
    sweep demands (sets.extend d.1 (d.2 sets)) := rfl

theorem below_sweep : sets.Below (sweep demands sets) := by
  induction demands generalizing sets with
  | nil => exact Below.refl sets
  | cons d demands ih => exact below_extend.trans ih

theorem sweep_induction {P : SymbolSets → Prop}
    (keep : ∀ d ∈ demands, ∀ sets, P sets → P (sets.extend d.1 (d.2 sets))) (start : P sets) :
    P (sweep demands sets) := by
  induction demands generalizing sets with
  | nil => exact start
  | cons d demands ih =>
    exact ih (fun e mem => keep e (List.mem_cons_of_mem d mem))
      (keep d List.mem_cons_self sets start)

def Meets (sets : SymbolSets) (d : Demand) : Prop :=
  d.1 ∈ sets.keys → ∀ a ∈ d.2 sets, a ∈ sets.of d.1

private theorem meets_of_sweep_eq (fixed : sweep demands sets = sets) :
    ∀ d ∈ demands, sets.Meets d := by
  induction demands with
  | nil => exact fun d mem => absurd mem List.not_mem_nil
  | cons d demands ih =>
    have first : sets.extend d.1 (d.2 sets) = sets := by
      refine Below.antisymm ?_ below_extend
      have later : (sets.extend d.1 (d.2 sets)).Below (sweep (d :: demands) sets) := below_sweep
      rwa [fixed] at later
    rw [sweep_cons, first] at fixed
    intro e mem
    rcases List.mem_cons.mp mem with rfl | mem
    · intro known a member
      rw [← first]
      exact mem_extend.mpr (Or.inr ⟨rfl, known, member⟩)
    · exact ih fixed e mem

def Confined (keys whole : List Symbol) (sets : SymbolSets) : Prop :=
  sets.keys = keys ∧ ∀ symbol, ∀ a ∈ sets.of symbol, a ∈ whole

private theorem Confined.total_le {keys whole : List Symbol} (confined : Confined keys whole sets) :
    sets.total ≤ keys.length * whole.length := by
  have each : ∀ size ∈ sets.keys.map fun symbol => (sets.of symbol).size, size ≤ whole.length := by
    intro size mem
    obtain ⟨symbol, _, rfl⟩ := List.mem_map.mp mem
    exact (List.subperm_of_subset (SortedSet.nodup _) (confined.2 symbol)).length_le
  have bound : sets.total ≤ _ := List.sum_le_card_nsmul _ _ each
  rwa [List.length_map, confined.1, smul_eq_mul] at bound

def Modest (keys whole : List Symbol) (demands : List Demand) : Prop :=
  ∀ d ∈ demands, ∀ sets, Confined keys whole sets → ∀ a ∈ d.2 sets, a ∈ whole

variable {keys whole : List Symbol}

private theorem Confined.sweep (confined : Confined keys whole sets)
    (modest : Modest keys whole demands) :
    Confined keys whole (sweep demands sets) := by
  apply sweep_induction _ confined
  intro d mem sets confined
  refine ⟨keys_extend.trans confined.1, fun symbol a member => ?_⟩
  rcases mem_extend.mp member with old | ⟨_, _, new⟩
  · exact confined.2 symbol a old
  · exact modest d mem sets confined a new

theorem Confined.stabilize (confined : Confined keys whole sets)
    (modest : Modest keys whole demands) (rounds : Nat) :
    Confined keys whole (stabilize (SymbolSets.sweep demands) rounds sets) :=
  stabilize_induction (fun _ confined => Confined.sweep confined modest) rounds confined

theorem Confined.meets_stabilize (confined : Confined keys whole sets)
    (modest : Modest keys whole demands) {rounds : Nat}
    (enough : keys.length * whole.length < rounds) :
    ∀ d ∈ demands, (LanguageTheory.stabilize (SymbolSets.sweep demands) rounds sets).Meets d := by
  apply meets_of_sweep_eq
  apply stabilize_stable (P := Confined keys whole) total (keys.length * whole.length)
  · exact fun _ confined => confined.sweep modest
  · exact fun _ confined => confined.total_le
  · exact fun _ _ changed => below_sweep.total_lt changed
  · exact confined
  · omega

end SymbolSets

end LanguageTheory

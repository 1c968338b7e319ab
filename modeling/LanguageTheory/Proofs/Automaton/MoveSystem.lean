import Mathlib.Data.Finset.Powerset
import LanguageTheory.Automaton.Determinization
import LanguageTheory.Proofs.Automaton.Deterministic

/-!
The automaton of a machine over configurations. Whatever the names are, it is well formed and
deterministic and all of its states can be reached, provided that the names fit into the bound. If
moreover names tell the configurations apart, it accepts from the state of a configuration what the
machine accepts from the configuration (`acceptsFrom_automaton`).
-/

set_option autoImplicit false
set_option relaxedAutoImplicit false

namespace LanguageTheory.MoveSystem

variable {σ : Type} {M : MoveSystem σ} {bound : Nat}

def Accepts (M : MoveSystem σ) : σ → Word → Prop
  | c, [] => M.isAccepting c = true
  | c, symbol :: word => symbol ∈ M.alphabet ∧ ∃ d, M.move c symbol = some d ∧ M.Accepts d word

def Bounded (M : MoveSystem σ) (bound : Nat) : Prop :=
  ∃ names : Finset StateName, names.card ≤ bound ∧ ∀ c ∈ M.configurations bound, M.name c ∈ names

def Voiced (M : MoveSystem σ) (bound : Nat) : Prop :=
  Symbol.epsilon ∈ M.alphabet → ∀ c ∈ M.configurations bound, M.move c Symbol.epsilon = none

theorem mem_successors {c d : σ} :
    d ∈ M.successors c ↔ ∃ symbol ∈ M.alphabet, M.move c symbol = some d := List.mem_filterMap

private theorem nodup_names (M : MoveSystem σ) (bound : Nat) :
    ((M.configurations bound).map M.name).Nodup :=
  Discovery.nodup_keys_reached M.name M.successors bound [M.start]

theorem eq_of_name_eq {c d : σ} (hc : c ∈ M.configurations bound)
    (hd : d ∈ M.configurations bound) (same : M.name c = M.name d) : c = d :=
  List.inj_on_of_nodup_map (nodup_names M bound) hc hd same

private theorem start_name_mem (M : MoveSystem σ) (bound : Nat) :
    M.name M.start ∈ (M.configurations bound).map M.name :=
  Discovery.start_mem_reached M.name M.successors bound (List.mem_singleton.mpr rfl)

private theorem successor_name_mem (bounded : M.Bounded bound) {c d : σ} {symbol : Symbol}
    (met : c ∈ M.configurations bound) (mem : symbol ∈ M.alphabet)
    (move : M.move c symbol = some d) : M.name d ∈ (M.configurations bound).map M.name := by
  obtain ⟨names, fits, inside⟩ := bounded
  exact Discovery.closed_reached names fits inside met (mem_successors.mpr ⟨symbol, mem, move⟩)

/-- The bound does not show: the configurations are what the search finds before it ends by
itself. -/
theorem ends_configurations (bounded : M.Bounded bound) :
    Discovery.Ends M.name M.successors [M.start] [M.start] (M.configurations bound) := by
  obtain ⟨names, fits, inside⟩ := bounded
  rw [← Discovery.fresh_singleton M.name M.start]
  exact Discovery.ends_reached names fits inside

theorem configurations_eq {met : List σ}
    (ends : Discovery.Ends M.name M.successors [M.start] [M.start] met) (few : met.length ≤ bound) :
    M.configurations bound = met := by
  rw [configurations, Discovery.reached, Discovery.fresh_singleton]
  apply ends.explore_eq
  rw [List.length_singleton]
  omega

theorem configurations_invariant (bound : Nat) {P : σ → Prop} (start : P M.start)
    (keep : ∀ c, P c → ∀ symbol ∈ M.alphabet, ∀ d, M.move c symbol = some d → P d) :
    ∀ c ∈ M.configurations bound, P c := by
  have grown := Discovery.grown_reached M.name M.successors bound [M.start]
  refine grown.induction (Q := P) ?_ ?_
  · intro c _ hc
    exact List.mem_singleton.mp hc ▸ start
  · intro c _ hP d hd _
    obtain ⟨symbol, mem, move⟩ := mem_successors.mp hd
    exact keep c hP symbol mem d move

theorem configurations_closed {P : σ → Prop} (bounded : M.Bounded bound) (start : P M.start)
    (keep : ∀ c, P c → ∀ symbol ∈ M.alphabet, ∀ d, M.move c symbol = some d → P d)
    (apart : ∀ c d, P c → P d → M.name c = M.name d → c = d) {c d : σ} {symbol : Symbol}
    (met : c ∈ M.configurations bound) (mem : symbol ∈ M.alphabet)
    (move : M.move c symbol = some d) : d ∈ M.configurations bound := by
  have holds := configurations_invariant bound start keep
  obtain ⟨d', met', same⟩ := List.mem_map.mp (successor_name_mem bounded met mem move)
  have equal := apart d d' (keep c (holds c met) symbol mem d move) (holds d' met') same.symm
  exact equal ▸ met'

theorem start_mem {P : σ → Prop} (start : P M.start)
    (keep : ∀ c, P c → ∀ symbol ∈ M.alphabet, ∀ d, M.move c symbol = some d → P d)
    (apart : ∀ c d, P c → P d → M.name c = M.name d → c = d) :
    M.start ∈ M.configurations bound := by
  have holds := configurations_invariant bound start keep
  obtain ⟨c, met, same⟩ := List.mem_map.mp (start_name_mem M bound)
  exact apart c M.start (holds c met) start same ▸ met

theorem bounded_of_subsets {α : Type} [DecidableEq α] [LT α] [DecidableLT α]
    [Std.Irrefl (α := α) (· < ·)] [Std.Trichotomous (α := α) (· < ·)]
    [Trans (α := α) (β := α) (γ := α) (· < ·) (· < ·) (· < ·)] {M : MoveSystem (SortedSet α)}
    {members : Finset α} {count : Nat} (few : members.card ≤ count)
    (inside : ∀ c ∈ M.configurations (2 ^ count + 1), ∀ a ∈ c, a ∈ members) :
    M.Bounded (2 ^ count + 1) := by
  refine ⟨members.powerset.image fun subset => M.name (SortedSet.ofList subset.toList), ?_, ?_⟩
  · calc (members.powerset.image fun subset => M.name (SortedSet.ofList subset.toList)).card
        ≤ members.powerset.card := Finset.card_image_le
      _ = 2 ^ members.card := Finset.card_powerset members
      _ ≤ 2 ^ count := Nat.pow_le_pow_right (by omega) few
      _ ≤ 2 ^ count + 1 := Nat.le_succ _
  · intro c met
    have sorted : SortedSet.ofList c.toList.toFinset.toList = c := by
      apply SortedSet.ext
      intro a
      simp
    refine Finset.mem_image.mpr ⟨c.toList.toFinset, ?_, congrArg M.name sorted⟩
    rw [Finset.mem_powerset]
    exact fun a mem => inside c met a (List.mem_toFinset.mp mem)

section Automaton

private theorem entries_automaton : (M.automaton bound).states.entries =
    (M.configurations bound).map fun c => (M.name c, M.role c) := by
  refine OrderedTable.entries_ofList ?_
  simpa [Function.comp_def] using nodup_names M bound

theorem stateNames_automaton :
    (M.automaton bound).stateNames = (M.configurations bound).map M.name := by
  rw [Automaton.stateNames, OrderedTable.keys, entries_automaton, List.map_map]
  rfl

theorem size_automaton : (M.automaton bound).states.size = (M.configurations bound).length := by
  rw [← List.length_map M.name, ← stateNames_automaton]
  exact (List.length_map Prod.fst).symm

private theorem get?_automaton {name : StateName} {role : StateRole} :
    (M.automaton bound).states.get? name = some role ↔
      ∃ c ∈ M.configurations bound, M.name c = name ∧ M.role c = role := by
  simp [OrderedTable.get?_eq_some_iff, entries_automaton]

private theorem mem_transitions_automaton {t : Transition} : t ∈ (M.automaton bound).transitions ↔
    ∃ c ∈ M.configurations bound, ∃ symbol ∈ M.alphabet, ∃ d, M.move c symbol = some d ∧
      Transition.plain (M.name c) symbol (M.name d) = t := by
  simp [automaton, transitionsOf, Option.map_eq_some_iff]

theorem moves_automaton {source target : StateName} {symbol : Symbol} :
    (M.automaton bound).Moves source symbol target ↔
      ∃ c ∈ M.configurations bound, M.name c = source ∧ symbol ∈ M.alphabet ∧
        ∃ d, M.move c symbol = some d ∧ M.name d = target := by
  constructor
  · rintro ⟨t, mem, rfl, rfl, rfl⟩
    obtain ⟨c, met, symbol, known, d, move, rfl⟩ := mem_transitions_automaton.mp mem
    exact ⟨c, met, rfl, known, d, move, rfl⟩
  · rintro ⟨c, met, rfl, known, d, move, rfl⟩
    exact ⟨_, mem_transitions_automaton.mpr ⟨c, met, symbol, known, d, move, rfl⟩, rfl, rfl, rfl⟩

theorem wellFormed_automaton (bounded : M.Bounded bound) : (M.automaton bound).WellFormed where
  entry_role := by
    obtain ⟨c, met, same⟩ := List.mem_map.mp (start_name_mem M bound)
    refine ⟨M.role c, get?_automaton.mpr ⟨c, met, same, rfl⟩, ?_⟩
    exact decide_eq_true same
  entry_unique := by
    intro name role found isEntry
    obtain ⟨c, met, rfl, rfl⟩ := get?_automaton.mp found
    exact of_decide_eq_true isEntry
  source_mem := by
    intro t mem
    obtain ⟨c, met, symbol, known, d, move, rfl⟩ := mem_transitions_automaton.mp mem
    change M.name c ∈ (M.automaton bound).stateNames
    rw [stateNames_automaton]
    exact List.mem_map_of_mem met
  target_mem := by
    intro t mem
    obtain ⟨c, met, symbol, known, d, move, rfl⟩ := mem_transitions_automaton.mp mem
    change M.name d ∈ (M.automaton bound).stateNames
    rw [stateNames_automaton]
    exact successor_name_mem bounded met known move
  label_mem := by
    intro t mem
    obtain ⟨c, met, symbol, known, d, move, rfl⟩ := mem_transitions_automaton.mp mem
    exact Or.inr known

theorem deterministic_automaton (voiced : M.Voiced bound) : (M.automaton bound).Deterministic := by
  rw [Automaton.deterministic_iff]
  refine ⟨?_, ?_⟩
  · intro t mem silent
    obtain ⟨c, met, symbol, known, d, move, rfl⟩ := mem_transitions_automaton.mp mem
    obtain rfl : symbol = Symbol.epsilon := silent
    rw [voiced known c met] at move
    cases move
  · intro t ht u hu source label
    obtain ⟨c, met, symbol, _, d, move, rfl⟩ := mem_transitions_automaton.mp ht
    obtain ⟨c', met', symbol', _, d', move', rfl⟩ := mem_transitions_automaton.mp hu
    obtain rfl : c = c' := eq_of_name_eq met met' source
    obtain rfl : symbol = symbol' := label
    rw [move] at move'
    rw [Option.some.inj move']

theorem path_to_state (voiced : M.Voiced bound) {name : StateName}
    (mem : name ∈ (M.automaton bound).stateNames) :
    ∃ word, (M.automaton bound).Path (M.automaton bound).entry word name := by
  have det := deterministic_automaton voiced
  have grown := Discovery.grown_reached M.name M.successors bound [M.start]
  rw [stateNames_automaton] at mem
  obtain ⟨c, met, rfl⟩ := List.mem_map.mp mem
  refine grown.induction (Q := fun c => ∃ word,
    (M.automaton bound).Path (M.automaton bound).entry word (M.name c)) ?_ ?_ c met
  · intro c _ hc
    obtain rfl := List.mem_singleton.mp hc
    exact ⟨[], .stay _⟩
  · rintro c met ⟨word, way⟩ d hd _
    obtain ⟨symbol, known, move⟩ := mem_successors.mp hd
    have step : (M.automaton bound).Moves (M.name c) symbol (M.name d) :=
      moves_automaton.mpr ⟨c, met, rfl, known, d, move, rfl⟩
    exact ⟨word ++ [symbol], way.append (.read (det.visible step) step (.stay _))⟩

theorem isExit_automaton {c : σ} (met : c ∈ M.configurations bound) :
    (M.automaton bound).isExit (M.name c) = M.isAccepting c := by
  have found : (M.automaton bound).states.get? (M.name c) = some (M.role c) :=
    get?_automaton.mpr ⟨c, met, rfl, rfl⟩
  simp [Automaton.isExit, found, role]

theorem acceptsFrom_automaton (voiced : M.Voiced bound)
    (closed : ∀ c ∈ M.configurations bound, ∀ symbol ∈ M.alphabet, ∀ d,
      M.move c symbol = some d → d ∈ M.configurations bound)
    {c : σ} (met : c ∈ M.configurations bound) {word : Word} :
    (M.automaton bound).AcceptsFrom (M.name c) word ↔ M.Accepts c word := by
  have det := deterministic_automaton voiced
  induction word generalizing c with
  | nil => rw [det.acceptsFrom_nil, isExit_automaton met, Accepts]
  | cons symbol word ih =>
    rw [det.acceptsFrom_cons, Accepts]
    constructor
    · rintro ⟨next, step, accepted⟩
      obtain ⟨c', met', same, known, d, move, rfl⟩ := moves_automaton.mp step
      obtain rfl := eq_of_name_eq met' met same
      exact ⟨known, d, move, (ih (closed c' met symbol known d move)).mp accepted⟩
    · rintro ⟨known, d, move, accepted⟩
      refine ⟨M.name d, moves_automaton.mpr ⟨c, met, rfl, known, d, move, rfl⟩, ?_⟩
      exact (ih (closed c met symbol known d move)).mpr accepted

end Automaton

end LanguageTheory.MoveSystem

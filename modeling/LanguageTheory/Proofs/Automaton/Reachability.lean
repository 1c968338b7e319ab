import LanguageTheory.Automaton.Minimization
import LanguageTheory.Proofs.Automaton.Deterministic

/-!
Reachable and live states. The search for reachable states finds the ends of the paths from the
entry, and the search for live states finds the states that accept some word. A restriction that
keeps what accepting paths go through keeps what is accepted; so trimming an automaton changes no
word, and leaves only states that can be reached and, the entry aside, that accept some word.
-/

set_option autoImplicit false
set_option relaxedAutoImplicit false

namespace LanguageTheory.Automaton

variable {A : Automaton}

private theorem mem_exits_iff {name : StateName} : name ∈ A.exits ↔ A.isExit name = true := by
  rw [exits, OrderedTable.mem_keys_iff]
  simp only [OrderedTable.get?_filter_eq_some_iff, isExit]
  constructor
  · rintro ⟨role, found, accepting⟩
    simp [found, accepting]
  · intro accepting
    cases found : A.states.get? name with
    | none => simp [found] at accepting
    | some role => exact ⟨role, rfl, by simpa [found] using accepting⟩

theorem mem_keys_of_isExit {name : StateName} (accepting : A.isExit name = true) :
    name ∈ A.states.keys := by
  obtain ⟨role, found⟩ := OrderedTable.mem_keys_iff.mp (mem_exits_iff.mpr accepting)
  exact OrderedTable.mem_keys_of_get? (OrderedTable.get?_filter_eq_some_iff.mp found).1

def Edge (A : Automaton) (source target : StateName) : Prop := ∃ label, A.Moves source label target

private theorem exists_path_iff {source target : StateName} :
    (∃ word, A.Path source word target) ↔ Relation.ReflTransGen A.Edge source target := by
  constructor
  · rintro ⟨word, way⟩
    induction way with
    | stay name => exact .refl
    | silent move _ ih => exact .head ⟨_, move⟩ ih
    | read _ move _ ih => exact .head ⟨_, move⟩ ih
  · intro way
    induction way using Relation.ReflTransGen.head_induction_on with
    | refl => exact ⟨[], .stay target⟩
    | head edge _ ih =>
      obtain ⟨label, move⟩ := edge
      obtain ⟨word, rest⟩ := ih
      by_cases silent : label = Symbol.epsilon
      · exact ⟨word, .silent (silent ▸ move) rest⟩
      · exact ⟨label :: word, .read silent move rest⟩

private theorem mem_reachableStates_iff (fits : A.WellFormed) {name : StateName} :
    name ∈ A.reachableStates ↔ ∃ word, A.Path A.entry word name := by
  have edges : (fun x y => y ∈ (A.transitionsFrom x).map Transition.target) = A.Edge := by
    funext source target
    simp [transitionsFrom, Edge, Moves, and_assoc]
  rw [exists_path_iff, reachableStates, Discovery.mem_reached_iff A.stateNames.toFinset
    (A.card_stateNames_le.trans (Nat.le_succ _)), edges]
  · simp
  · intro start mem
    rw [List.mem_singleton.mp mem]
    exact List.mem_toFinset.mpr fits.entry_mem
  · intro source _ target edge
    obtain ⟨t, mem, rfl⟩ := List.mem_map.mp edge
    exact List.mem_toFinset.mpr (fits.target_mem t (List.mem_filter.mp mem).1)

private theorem mem_liveStates_iff (fits : A.WellFormed) {name : StateName} :
    name ∈ A.liveStates ↔ ∃ word, A.AcceptsFrom name word := by
  have edges : (fun x y => y ∈ (A.transitions.toList.filter fun t =>
      decide (t.target = x)).map Transition.source) = Function.swap A.Edge := by
    funext target source
    simp only [List.mem_map, List.mem_filter, OrderedSet.mem_toList, decide_eq_true_eq,
      Function.swap, Edge, Moves, eq_iff_iff]
    constructor
    · rintro ⟨t, ⟨mem, rfl⟩, rfl⟩
      exact ⟨t.label, t, mem, rfl, rfl, rfl⟩
    · rintro ⟨_, t, mem, rfl, _, rfl⟩
      exact ⟨t, ⟨mem, rfl⟩, rfl⟩
  rw [liveStates, Discovery.mem_reached_iff A.stateNames.toFinset
    (A.card_stateNames_le.trans (Nat.le_succ _)), edges]
  · simp only [Relation.reflTransGen_swap, ← exists_path_iff, AcceptsFrom, mem_exits_iff]
    constructor
    · rintro ⟨last, accepting, word, way⟩
      exact ⟨word, last, way, accepting⟩
    · rintro ⟨word, last, way, accepting⟩
      exact ⟨last, accepting, word, way⟩
  · exact fun last mem => List.mem_toFinset.mpr (mem_keys_of_isExit (mem_exits_iff.mp mem))
  · intro target _ source edge
    obtain ⟨t, mem, rfl⟩ := List.mem_map.mp edge
    exact List.mem_toFinset.mpr (fits.source_mem t (List.mem_filter.mp mem).1)

section Restrict

variable {keep : StateName → Bool}

theorem get?_restrict {name : StateName} {role : StateRole} :
    (A.restrict keep).states.get? name = some role ↔
      A.states.get? name = some role ∧ keep name = true :=
  OrderedTable.get?_filter_eq_some_iff

theorem mem_keys_restrict {name : StateName} :
    name ∈ (A.restrict keep).states.keys ↔ name ∈ A.states.keys ∧ keep name = true := by
  simp only [OrderedTable.mem_keys_iff, get?_restrict, exists_and_right]

theorem mem_transitions_restrict {t : Transition} : t ∈ (A.restrict keep).transitions ↔
    t ∈ A.transitions ∧ keep t.source = true ∧ keep t.target = true := by
  rw [restrict, OrderedSet.mem_filter, Bool.and_eq_true]

private theorem moves_restrict {source target : StateName} {label : Symbol} :
    (A.restrict keep).Moves source label target ↔
      A.Moves source label target ∧ keep source = true ∧ keep target = true := by
  constructor
  · rintro ⟨t, mem, rfl, rfl, rfl⟩
    obtain ⟨old, kept⟩ := mem_transitions_restrict.mp mem
    exact ⟨⟨t, old, rfl, rfl, rfl⟩, kept⟩
  · rintro ⟨⟨t, mem, rfl, rfl, rfl⟩, kept⟩
    exact ⟨t, mem_transitions_restrict.mpr ⟨mem, kept⟩, rfl, rfl, rfl⟩

private theorem isExit_restrict {name : StateName} :
    (A.restrict keep).isExit name = true ↔ A.isExit name = true ∧ keep name = true := by
  simp only [← mem_exits_iff, exits, OrderedTable.mem_keys_iff,
    OrderedTable.get?_filter_eq_some_iff, get?_restrict]
  constructor
  · rintro ⟨role, ⟨found, kept⟩, accepting⟩
    exact ⟨⟨role, found, accepting⟩, kept⟩
  · rintro ⟨⟨role, found, accepting⟩, kept⟩
    exact ⟨role, ⟨found, kept⟩, accepting⟩

theorem restrict_restrict (A : Automaton) (keep more : StateName → Bool) :
    (A.restrict keep).restrict more = A.restrict fun name => keep name && more name := by
  have states : ((A.states.filter fun name _ => keep name).filter fun name _ => more name) =
      A.states.filter fun name _ => keep name && more name :=
    OrderedTable.eq_of_entries_eq (by
      simp only [OrderedTable.filter, List.filter_filter, Bool.and_comm])
  have transitions : ((A.transitions.filter fun t => keep t.source && keep t.target).filter fun t =>
      more t.source && more t.target) = A.transitions.filter fun t =>
        (keep t.source && more t.source) && (keep t.target && more t.target) :=
    OrderedSet.eq_of_toList_eq (by
      simp only [OrderedSet.filter, List.filter_filter]
      refine List.filter_congr fun t _ => ?_
      cases keep t.source <;> cases keep t.target <;> simp)
  simp only [restrict, states, transitions]

theorem restrict_congr (fits : A.WellFormed) {other : StateName → Bool}
    (same : ∀ name ∈ A.states.keys, keep name = other name) :
    A.restrict keep = A.restrict other := by
  have states : (A.states.filter fun name _ => keep name) =
      A.states.filter fun name _ => other name :=
    OrderedTable.eq_of_entries_eq (List.filter_congr fun e mem =>
      same e.1 (OrderedTable.mem_keys_of_get? (OrderedTable.get?_eq_some_iff.mpr mem)))
  have transitions : (A.transitions.filter fun t => keep t.source && keep t.target) =
      A.transitions.filter fun t => other t.source && other t.target :=
    OrderedSet.eq_of_toList_eq (List.filter_congr fun t mem => by
      rw [same t.source (fits.source_mem t mem), same t.target (fits.target_mem t mem)])
  simp only [restrict, states, transitions]

theorem restrict_eq_self (fits : A.WellFormed) (all : ∀ name ∈ A.stateNames, keep name = true) :
    A.restrict keep = A := by
  have states : (A.states.filter fun _ _ => true) = A.states :=
    OrderedTable.eq_of_entries_eq (List.filter_true _)
  have transitions : (A.transitions.filter fun _ => true && true) = A.transitions :=
    OrderedSet.eq_of_toList_eq (List.filter_true _)
  calc A.restrict keep = A.restrict fun _ => true := restrict_congr fits all
    _ = A := by rw [restrict, states, transitions]

private theorem wellFormed_restrict (fits : A.WellFormed) (entry_kept : keep A.entry = true) :
    (A.restrict keep).WellFormed where
  entry_role := by
    obtain ⟨role, found, isEntry⟩ := fits.entry_role
    exact ⟨role, get?_restrict.mpr ⟨found, entry_kept⟩, isEntry⟩
  entry_unique name role found isEntry :=
    fits.entry_unique name role (get?_restrict.mp found).1 isEntry
  source_mem t mem := by
    obtain ⟨old, kept, _⟩ := mem_transitions_restrict.mp mem
    exact mem_keys_restrict.mpr ⟨fits.source_mem t old, kept⟩
  target_mem t mem := by
    obtain ⟨old, _, kept⟩ := mem_transitions_restrict.mp mem
    exact mem_keys_restrict.mpr ⟨fits.target_mem t old, kept⟩
  label_mem t mem := fits.label_mem t (mem_transitions_restrict.mp mem).1

private theorem deterministic_restrict (det : A.Deterministic) :
    (A.restrict keep).Deterministic := by
  rw [deterministic_iff] at det ⊢
  refine ⟨fun t mem => det.1 t (mem_transitions_restrict.mp mem).1, ?_⟩
  intro t ht u hu source label
  exact det.2 t (mem_transitions_restrict.mp ht).1 u (mem_transitions_restrict.mp hu).1 source label

theorem path_of_restrict {source target : StateName} {word : Word}
    (way : (A.restrict keep).Path source word target) : A.Path source word target :=
  way.of_moves fun move => (moves_restrict.mp move).1

theorem path_restrict {source target : StateName} {word : Word} (kept : keep source = true)
    (closed : ∀ before label after rest, keep before = true → A.Moves before label after →
      A.Path after rest target → keep after = true)
    (way : A.Path source word target) : (A.restrict keep).Path source word target := by
  induction way with
  | stay name => exact .stay name
  | silent move rest ih =>
    have next := closed _ _ _ _ kept move rest
    exact .silent (moves_restrict.mpr ⟨move, kept, next⟩) (ih next closed)
  | read visible move rest ih =>
    have next := closed _ _ _ _ kept move rest
    exact .read visible (moves_restrict.mpr ⟨move, kept, next⟩) (ih next closed)

private theorem acceptsFrom_restrict {name : StateName} {word : Word} (kept : keep name = true)
    (closed : ∀ before label after, keep before = true → A.Moves before label after →
      (∃ rest, A.AcceptsFrom after rest) → keep after = true) :
    (A.restrict keep).AcceptsFrom name word ↔ A.AcceptsFrom name word := by
  constructor
  · rintro ⟨last, way, accepting⟩
    exact ⟨last, path_of_restrict way, (isExit_restrict.mp accepting).1⟩
  · rintro ⟨last, way, accepting⟩
    have inside := path_restrict kept (fun before label after rest hbefore move later =>
      closed before label after hbefore move ⟨rest, last, later, accepting⟩) way
    refine ⟨last, inside, isExit_restrict.mpr ⟨accepting, ?_⟩⟩
    -- The end of the path is where it began, or the target of a kept transition.
    clear way accepting closed
    induction inside with
    | stay name => exact kept
    | silent move _ ih => exact ih (moves_restrict.mp move).2.2
    | read _ move _ ih => exact ih (moves_restrict.mp move).2.2

end Restrict

section Trim

theorem live_or_entry_iff (fits : A.WellFormed) {name : StateName} :
    decide (name ∈ A.liveStates ∨ name = A.entry) = true ↔
      (∃ word, A.AcceptsFrom name word) ∨ name = A.entry := by
  rw [decide_eq_true_eq, mem_liveStates_iff fits]

theorem wellFormed_removeDeadStates (fits : A.WellFormed) : A.removeDeadStates.WellFormed :=
  wellFormed_restrict fits ((live_or_entry_iff fits).mpr (Or.inr rfl))

private theorem acceptsFrom_removeDeadStates (fits : A.WellFormed) {name : StateName}
    (mem : name ∈ A.removeDeadStates.states.keys) {word : Word} :
    A.removeDeadStates.AcceptsFrom name word ↔ A.AcceptsFrom name word :=
  acceptsFrom_restrict (mem_keys_restrict.mp mem).2
    fun _ _ _ _ _ live => (live_or_entry_iff fits).mpr (Or.inl live)

theorem reachable_iff (fits : A.WellFormed) {name : StateName} :
    decide (name ∈ A.reachableStates) = true ↔ ∃ word, A.Path A.entry word name := by
  rw [decide_eq_true_eq, mem_reachableStates_iff fits]

private theorem reachable_step (fits : A.WellFormed) {before after : StateName} {label : Symbol}
    (kept : decide (before ∈ A.reachableStates) = true) (move : A.Moves before label after) :
    decide (after ∈ A.reachableStates) = true := by
  obtain ⟨word, way⟩ := (reachable_iff fits).mp kept
  rw [reachable_iff fits, exists_path_iff]
  exact (exists_path_iff.mp ⟨word, way⟩).tail ⟨label, move⟩

theorem entry_reachable (A : Automaton) : decide (A.entry ∈ A.reachableStates) = true := by
  have start := Discovery.start_mem_reached id
    (fun name => (A.transitionsFrom name).map Transition.target) (A.states.size + 1)
    (List.mem_singleton_self A.entry)
  rw [List.map_id] at start
  exact decide_eq_true start

theorem wellFormed_removeUnreachableStates (fits : A.WellFormed) :
    A.removeUnreachableStates.WellFormed := wellFormed_restrict fits A.entry_reachable

theorem acceptsFrom_removeUnreachableStates (fits : A.WellFormed) {name : StateName}
    (mem : name ∈ A.removeUnreachableStates.states.keys) {word : Word} :
    A.removeUnreachableStates.AcceptsFrom name word ↔ A.AcceptsFrom name word :=
  acceptsFrom_restrict (mem_keys_restrict.mp mem).2 fun _ _ _ kept move _ =>
    reachable_step fits kept move

private theorem path_removeUnreachableStates (fits : A.WellFormed) {name : StateName} {word : Word}
    (way : A.Path A.entry word name) : A.removeUnreachableStates.Path A.entry word name :=
  path_restrict A.entry_reachable (fun _ _ _ _ kept move _ => reachable_step fits kept move) way

theorem wellFormed_trim (fits : A.WellFormed) : A.trim.WellFormed :=
  wellFormed_removeUnreachableStates (wellFormed_removeDeadStates fits)

theorem deterministic_trim (det : A.Deterministic) : A.trim.Deterministic :=
  deterministic_restrict (deterministic_restrict det)

theorem mem_keys_of_trim {name : StateName} (mem : name ∈ A.trim.states.keys) :
    name ∈ A.removeDeadStates.states.keys ∧ name ∈ A.states.keys := by
  have before := (mem_keys_restrict.mp mem).1
  exact ⟨before, (mem_keys_restrict.mp before).1⟩

theorem acceptsFrom_trim (fits : A.WellFormed) {name : StateName}
    (mem : name ∈ A.trim.states.keys) {word : Word} :
    A.trim.AcceptsFrom name word ↔ A.AcceptsFrom name word := by
  rw [trim, acceptsFrom_removeUnreachableStates (wellFormed_removeDeadStates fits) mem,
    acceptsFrom_removeDeadStates fits (mem_keys_of_trim mem).1]

theorem exists_path_trim (fits : A.WellFormed) {name : StateName}
    (mem : name ∈ A.trim.states.keys) : ∃ word, A.trim.Path A.trim.entry word name := by
  have fits_dead := wellFormed_removeDeadStates fits
  obtain ⟨word, way⟩ := (reachable_iff fits_dead).mp (mem_keys_restrict.mp mem).2
  exact ⟨word, path_removeUnreachableStates fits_dead way⟩

theorem live_of_mem_trim (fits : A.WellFormed) {name : StateName}
    (mem : name ∈ A.trim.states.keys) (other : name ≠ A.trim.entry) :
    ∃ word, A.trim.AcceptsFrom name word := by
  have kept := (mem_keys_restrict.mp (mem_keys_of_trim mem).1).2
  obtain ⟨word, accepted⟩ := ((live_or_entry_iff fits).mp kept).resolve_right other
  exact ⟨word, (acceptsFrom_trim fits mem).mpr accepted⟩

theorem live_or_single_trim (fits : A.WellFormed) :
    (∀ name ∈ A.trim.states.keys, ∃ word, A.trim.AcceptsFrom name word) ∨
      ∀ name ∈ A.trim.states.keys, name = A.trim.entry := by
  by_cases live : ∃ word, A.trim.AcceptsFrom A.trim.entry word
  · refine Or.inl fun name mem => ?_
    by_cases here : name = A.trim.entry
    · exact here ▸ live
    · exact live_of_mem_trim fits mem here
  · refine Or.inr fun name mem => ?_
    by_contra other
    obtain ⟨u, way⟩ := exists_path_trim fits mem
    obtain ⟨v, last, rest, accepting⟩ := live_of_mem_trim fits mem other
    exact live ⟨u ++ v, last, way.append rest, accepting⟩

theorem accepts_trim_of_readable (fits : A.WellFormed) {word : Word} (readable : A.Readable word) :
    A.trim.accepts word = A.accepts word := by
  have readable_trim : A.trim.Readable word := fun mem source target move =>
    readable mem source target (moves_restrict.mp (moves_restrict.mp move).1).1
  rw [Bool.eq_iff_iff, accepts_iff_recognizes readable_trim, accepts_iff_recognizes readable]
  exact acceptsFrom_trim fits (wellFormed_trim fits).entry_mem

theorem accepts_trim (fits : A.WellFormed) (det : A.Deterministic) (word : Word) :
    A.trim.accepts word = A.accepts word := accepts_trim_of_readable fits (det.readable word)

end Trim

end LanguageTheory.Automaton

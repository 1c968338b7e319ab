import LanguageTheory.Proofs.Automaton.Operations
import LanguageTheory.Proofs.FreshName

/-!
Completion and complement. Completion either finds nothing missing or adds a sink (`HasSink`): a new
state that does not accept, that every missing move leads to and that is never left. So the words
stay the same, and nothing is missing a second time. In a total deterministic automaton every word
over the alphabet leads to exactly one state, which is why exchanging accepting and other states
exchanges accepted and refused words.
-/

set_option autoImplicit false
set_option relaxedAutoImplicit false

namespace LanguageTheory.Automaton

variable {A C : Automaton} {sink : StateName}

theorem WellFormed.path_label (fits : A.WellFormed) {source target : StateName} {word : Word}
    (way : A.Path source word target) : ∀ symbol ∈ word, symbol ∈ A.alphabet.visible := by
  induction way with
  | stay name => exact fun symbol mem => absurd mem List.not_mem_nil
  | silent _ _ ih => exact ih
  | read visible move _ ih =>
    refine List.forall_mem_cons.mpr ⟨?_, ih⟩
    exact Alphabet.mem_visible.mpr ⟨fits.moves_label visible move, visible⟩

section Total

def Total (A : Automaton) : Prop :=
  ∀ name ∈ A.stateNames, ∀ symbol ∈ A.alphabet.visible, ∃ target, A.Moves name symbol target

theorem missingMoves_isEmpty_iff : A.missingMoves.isEmpty = true ↔ A.Total := by
  rw [List.isEmpty_iff, List.eq_nil_iff_forall_not_mem]
  constructor
  · intro none name known symbol visible
    by_contra missing
    exact none (name, symbol) (mem_missingMoves.mpr ⟨known, visible, not_exists.mp missing⟩)
  · rintro total ⟨name, symbol⟩ mem
    obtain ⟨known, visible, missing⟩ := mem_missingMoves.mp mem
    obtain ⟨target, move⟩ := total name known symbol visible
    exact missing target move

private theorem Total.complete_eq (total : A.Total) : A.complete = A := by
  rw [complete, if_pos (missingMoves_isEmpty_iff.mpr total)]

theorem Total.exists_path (total : A.Total) (fits : A.WellFormed) {name : StateName}
    (known : name ∈ A.stateNames) {word : Word}
    (inside : ∀ symbol ∈ word, symbol ∈ A.alphabet.visible) :
    ∃ last ∈ A.stateNames, A.Path name word last := by
  induction word generalizing name with
  | nil => exact ⟨name, known, .stay name⟩
  | cons symbol word ih =>
    obtain ⟨visible, later⟩ := List.forall_mem_cons.mp inside
    obtain ⟨next, move⟩ := total name known symbol visible
    obtain ⟨last, member, way⟩ := ih (fits.moves_mem move).2 later
    exact ⟨last, member, .read (Alphabet.mem_visible.mp visible).2 move way⟩

end Total

section HasSink

private theorem sinkName_not_mem (A : Automaton) : A.sinkName ∉ A.stateNames := by
  unfold sinkName
  split
  · exact StateNameSupply.nextFree_not_mem _ A.stateNames
  · assumption

/-- The second automaton is the first one with a sink: a new state, which does not accept, where the
missing moves of the old states and all moves of its own lead to. -/
structure HasSink (A C : Automaton) (sink : StateName) : Prop where
  new : sink ∉ A.stateNames
  states : C.states = A.states.insert sink ⟨false, false⟩
  alphabet : C.alphabet = A.alphabet
  entry : C.entry = A.entry
  transitions : ∀ t, t ∈ C.transitions ↔ t ∈ A.transitions ∨ ∃ source label,
    (source = sink ∨ source ∈ A.stateNames ∧ ∀ target, ¬ A.Moves source label target) ∧
      label ∈ A.alphabet.visible ∧ t = .plain source label sink

theorem complete_cases (A : Automaton) :
    (A.Total ∧ A.complete = A) ∨ A.HasSink A.complete A.sinkName := by
  by_cases total : A.Total
  · exact Or.inl ⟨total, total.complete_eq⟩
  · refine Or.inr ?_
    rw [complete, if_neg fun none => total (missingMoves_isEmpty_iff.mp none)]
    refine ⟨A.sinkName_not_mem, rfl, rfl, rfl, fun t => ?_⟩
    rw [OrderedSet.mem_insertMany, List.mem_append, List.mem_map, List.mem_map]
    apply or_congr_right
    constructor
    · rintro (⟨⟨source, label⟩, mem, rfl⟩ | ⟨label, visible, rfl⟩)
      · obtain ⟨known, visible, missing⟩ := mem_missingMoves.mp mem
        exact ⟨source, label, Or.inr ⟨known, missing⟩, visible, rfl⟩
      · exact ⟨A.sinkName, label, Or.inl rfl, visible, rfl⟩
    · rintro ⟨source, label, rfl | ⟨known, missing⟩, visible, rfl⟩
      · exact Or.inr ⟨label, visible, rfl⟩
      · exact Or.inl ⟨(source, label), mem_missingMoves.mpr ⟨known, visible, missing⟩, rfl⟩

private theorem HasSink.mem_stateNames (has : A.HasSink C sink) {name : StateName} :
    name ∈ C.stateNames ↔ name ∈ A.stateNames ∨ name = sink := by
  rw [stateNames, has.states, OrderedTable.mem_keys_insert]
  rfl

private theorem HasSink.isExit (has : A.HasSink C sink) (name : StateName) :
    C.isExit name = A.isExit name := by
  rw [Automaton.isExit, Automaton.isExit, has.states, OrderedTable.get?_insert]
  split
  · rename_i same
    have absent : A.states.get? name = none := OrderedTable.get?_eq_none_iff.mpr (same ▸ has.new)
    rw [absent]
    rfl
  · rfl

private theorem HasSink.moves_iff (has : A.HasSink C sink) {source target : StateName}
    {label : Symbol} :
    C.Moves source label target ↔ A.Moves source label target ∨ target = sink ∧
      label ∈ A.alphabet.visible ∧
        (source = sink ∨ source ∈ A.stateNames ∧ ∀ next, ¬ A.Moves source label next) := by
  constructor
  · rintro ⟨t, mem, rfl, rfl, rfl⟩
    rcases (has.transitions t).mp mem with old | ⟨source, label, origin, visible, rfl⟩
    · exact Or.inl ⟨t, old, rfl, rfl, rfl⟩
    · exact Or.inr ⟨rfl, visible, origin⟩
  · rintro (⟨t, old, rfl, rfl, rfl⟩ | ⟨rfl, visible, origin⟩)
    · exact ⟨t, (has.transitions t).mpr (Or.inl old), rfl, rfl, rfl⟩
    · exact ⟨_, (has.transitions _).mpr (Or.inr ⟨source, label, origin, visible, rfl⟩), rfl,
        rfl, rfl⟩

private theorem HasSink.wellFormed (has : A.HasSink C sink) (fits : A.WellFormed) :
    C.WellFormed := by
  have known {name : StateName} : name ∈ C.states.keys ↔ name ∈ A.stateNames ∨ name = sink :=
    has.mem_stateNames
  have found (name : StateName) (role : StateRole) : C.states.get? name = some role ↔
      (name = sink ∧ role = ⟨false, false⟩) ∨ name ≠ sink ∧ A.states.get? name = some role := by
    rw [has.states, OrderedTable.get?_insert]
    by_cases same : name = sink
    · simp [same, eq_comm]
    · simp [same]
  have entry_ne : A.entry ≠ sink := fun same => has.new (same ▸ fits.entry_mem)
  exact {
    entry_role := by
      obtain ⟨role, stored, isEntry⟩ := fits.entry_role
      exact ⟨role, (found C.entry role).mpr (Or.inr (has.entry ▸ ⟨entry_ne, stored⟩)), isEntry⟩
    entry_unique := fun name role stored isEntry => by
      rcases (found name role).mp stored with ⟨_, rfl⟩ | ⟨_, old⟩
      · cases isEntry
      · exact has.entry ▸ fits.entry_unique name role old isEntry
    source_mem := fun t mem => by
      rcases (has.transitions t).mp mem with old | ⟨source, label, rfl | ⟨old, _⟩, _, rfl⟩
      · exact known.mpr (Or.inl (fits.source_mem t old))
      · exact known.mpr (Or.inr rfl)
      · exact known.mpr (Or.inl old)
    target_mem := fun t mem => by
      rcases (has.transitions t).mp mem with old | ⟨_, _, _, _, rfl⟩
      · exact known.mpr (Or.inl (fits.target_mem t old))
      · exact known.mpr (Or.inr rfl)
    label_mem := fun t mem => by
      rw [has.alphabet]
      rcases (has.transitions t).mp mem with old | ⟨_, _, _, visible, rfl⟩
      · exact fits.label_mem t old
      · exact Or.inr (Alphabet.mem_visible.mp visible).1 }

private theorem HasSink.total (has : A.HasSink C sink) : C.Total := by
  intro name known symbol visible
  rw [has.alphabet] at visible
  by_cases old : ∃ target, A.Moves name symbol target
  · obtain ⟨target, move⟩ := old
    exact ⟨target, has.moves_iff.mpr (Or.inl move)⟩
  · refine ⟨sink, has.moves_iff.mpr (Or.inr ⟨rfl, visible, ?_⟩)⟩
    rcases has.mem_stateNames.mp known with member | rfl
    · exact Or.inr ⟨member, not_exists.mp old⟩
    · exact Or.inl rfl

private theorem HasSink.path_of_path (has : A.HasSink C sink) (fits : A.WellFormed)
    {source target : StateName} {word : Word} (way : C.Path source word target)
    (outside : target ≠ sink) :
    source ≠ sink ∧ A.Path source word target := by
  have old {before after : StateName} {label : Symbol} (move : C.Moves before label after)
      (elsewhere : after ≠ sink) : before ≠ sink ∧ A.Moves before label after := by
    rcases has.moves_iff.mp move with move | ⟨same, _⟩
    · exact ⟨fun same => has.new (same ▸ (fits.moves_mem move).1), move⟩
    · exact absurd same elsewhere
  induction way with
  | stay name => exact ⟨outside, .stay name⟩
  | silent move _ ih =>
    obtain ⟨elsewhere, rest⟩ := ih outside
    obtain ⟨here, move⟩ := old move elsewhere
    exact ⟨here, .silent move rest⟩
  | read visible move _ ih =>
    obtain ⟨elsewhere, rest⟩ := ih outside
    obtain ⟨here, move⟩ := old move elsewhere
    exact ⟨here, .read visible move rest⟩

private theorem HasSink.path_of_old (has : A.HasSink C sink) {source target : StateName}
    {word : Word} (way : A.Path source word target) : C.Path source word target :=
  way.of_moves fun move => has.moves_iff.mpr (Or.inl move)

private theorem HasSink.recognizes_iff (has : A.HasSink C sink) (fits : A.WellFormed)
    {word : Word} :
    C.Recognizes word ↔ A.Recognizes word := by
  rw [Recognizes, Recognizes, has.entry]
  constructor
  · rintro ⟨last, way, accepting⟩
    rw [has.isExit] at accepting
    have outside : last ≠ sink := fun same => has.new (same ▸ mem_keys_of_isExit accepting)
    exact ⟨last, (has.path_of_path fits way outside).2, accepting⟩
  · rintro ⟨last, way, accepting⟩
    exact ⟨last, has.path_of_old way, (has.isExit last).trans accepting⟩

private theorem HasSink.deterministic (has : A.HasSink C sink) (linked : A.Linked)
    (det : A.Deterministic) :
    C.Deterministic := by
  rw [deterministic_iff] at det ⊢
  -- A new transition leaves the sink, which no old one does, or stands where nothing was.
  have apart {t : Transition} (old : t ∈ A.transitions) {source : StateName} {label : Symbol}
      (origin : source = sink ∨ source ∈ A.stateNames ∧ ∀ target, ¬ A.Moves source label target)
      (same : t.source = source) (same' : t.label = label) : False := by
    rcases origin with rfl | ⟨_, missing⟩
    · exact has.new (same ▸ linked.source_mem t old)
    · exact missing t.target ⟨t, old, same, same', rfl⟩
  constructor
  · intro t mem
    rcases (has.transitions t).mp mem with old | ⟨_, _, _, visible, rfl⟩
    · exact det.1 t old
    · exact (Alphabet.mem_visible.mp visible).2
  · intro t ht u hu source label
    rcases (has.transitions t).mp ht with old | ⟨_, _, origin, _, rfl⟩
    · rcases (has.transitions u).mp hu with old' | ⟨_, _, origin, _, rfl⟩
      · exact det.2 t old u old' source label
      · exact (apart old origin source label).elim
    · rcases (has.transitions u).mp hu with old | ⟨_, _, _, _, rfl⟩
      · exact (apart old origin source.symm label.symm).elim
      · obtain rfl := source
        obtain rfl := label
        rfl

end HasSink

section Complete

private theorem wellFormed_complete (fits : A.WellFormed) : A.complete.WellFormed := by
  rcases A.complete_cases with ⟨_, same⟩ | has
  · exact same.symm ▸ fits
  · exact has.wellFormed fits

private theorem total_complete (A : Automaton) : A.complete.Total := by
  rcases A.complete_cases with ⟨total, same⟩ | has
  · exact same.symm ▸ total
  · exact has.total

private theorem alphabet_complete (A : Automaton) : A.complete.alphabet = A.alphabet := by
  rcases A.complete_cases with ⟨_, same⟩ | has
  · rw [same]
  · exact has.alphabet

theorem entry_complete (A : Automaton) : A.complete.entry = A.entry := by
  rcases A.complete_cases with ⟨_, same⟩ | has
  · rw [same]
  · exact has.entry

theorem Linked.deterministic_complete (linked : A.Linked) (det : A.Deterministic) :
    A.complete.Deterministic := by
  rcases A.complete_cases with ⟨_, same⟩ | has
  · exact same.symm ▸ det
  · exact has.deterministic linked det

private theorem deterministic_complete (fits : A.WellFormed) (det : A.Deterministic) :
    A.complete.Deterministic := fits.linked.deterministic_complete det

private theorem recognizes_complete_iff (fits : A.WellFormed) {word : Word} :
    A.complete.Recognizes word ↔ A.Recognizes word := by
  rcases A.complete_cases with ⟨_, same⟩ | has
  · rw [same]
  · exact has.recognizes_iff fits

private theorem accepts_complete (fits : A.WellFormed) {word : Word}
    (visible : Symbol.epsilon ∉ word) :
    A.complete.accepts word = A.accepts word := by
  rw [Bool.eq_iff_iff, accepts_iff_recognizes (readable_of_visible visible),
    accepts_iff_recognizes (readable_of_visible visible)]
  exact recognizes_complete_iff fits

end Complete

section Complement

private theorem wellFormed_flipExits (fits : A.WellFormed) : A.flipExits.WellFormed := by
  have linked := linked_flipExits fits.linked
  have found (name : StateName) : A.flipExits.states.get? name = _ :=
    OrderedTable.get?_mapValues _ _ name
  exact {
    entry_role := by
      obtain ⟨role, stored, isEntry⟩ := fits.entry_role
      exact ⟨_, (found A.entry).trans (congrArg _ stored), isEntry⟩
    entry_unique := fun name role stored isEntry => by
      rw [found, Option.map_eq_some_iff] at stored
      obtain ⟨old, stored, rfl⟩ := stored
      exact fits.entry_unique name old stored isEntry
    source_mem := linked.source_mem
    target_mem := linked.target_mem
    label_mem := linked.label_mem }

private theorem isExit_flipExits {name : StateName} (known : name ∈ A.stateNames) :
    A.flipExits.isExit name = !A.isExit name := by
  obtain ⟨role, stored⟩ := OrderedTable.mem_keys_iff.mp known
  rw [isExit, isExit, flipExits, OrderedTable.get?_mapValues, stored]
  rfl

private theorem path_flipExits_iff {source target : StateName} {word : Word} :
    A.flipExits.Path source word target ↔ A.Path source word target :=
  ⟨Path.of_moves fun move => move, Path.of_moves fun move => move⟩

private theorem accepts_flipExits_iff (fits : A.WellFormed) (det : A.Deterministic)
    (total : A.Total) {word : Word} : A.flipExits.accepts word = true ↔
      (∀ symbol ∈ word, symbol ∈ A.alphabet.visible) ∧ A.accepts word = false := by
  have det' : A.flipExits.Deterministic := det
  rw [det'.accepts_iff, Bool.eq_false_iff, ne_eq, det.accepts_iff]
  constructor
  · rintro ⟨last, way, accepting⟩
    have way := path_flipExits_iff.mp way
    have known := fits.path_mem way fits.entry_mem
    rw [isExit_flipExits known, Bool.not_eq_true'] at accepting
    refine ⟨fits.path_label way, ?_⟩
    rintro ⟨other, way', accepting'⟩
    obtain rfl := det.path_unique way way'
    rw [accepting] at accepting'
    cases accepting'
  · rintro ⟨inside, refused⟩
    obtain ⟨last, known, way⟩ := total.exists_path fits fits.entry_mem inside
    refine ⟨last, path_flipExits_iff.mpr way, ?_⟩
    rw [isExit_flipExits known, Bool.not_eq_true', Bool.eq_false_iff]
    exact fun accepting => refused ⟨last, way, accepting⟩

/-- Completion makes an automaton total and changes neither its words nor, done again, anything. The
complement of a deterministic automaton is deterministic and accepts exactly the words over the
symbols other than `ε` that the automaton refuses. -/
theorem complement_exact {states : List State} {alphabet : Alphabet} {transitions : List Transition}
    (built : ofParts states alphabet transitions = .ok A) :
    A.complete.Total ∧ A.complete.alphabet = A.alphabet ∧
      (∀ word, Symbol.epsilon ∉ word → A.complete.accepts word = A.accepts word) ∧
      A.complete.complete = A.complete ∧
      (A.Deterministic → ∃ C, A.complement = .ok C ∧ C.WellFormed ∧ C.Deterministic ∧
        ∀ word, C.accepts word = true ↔
          (∀ symbol ∈ word, symbol ∈ A.alphabet ∧ symbol ≠ Symbol.epsilon) ∧
            A.accepts word = false) := by
  have fits := wellFormed_of_ofParts built
  have fits' := wellFormed_complete fits
  refine ⟨A.total_complete, A.alphabet_complete, fun word visible => accepts_complete fits visible,
    A.total_complete.complete_eq, fun det => ?_⟩
  have det' := deterministic_complete fits det
  refine ⟨A.complete.flipExits, complement_eq_ok_iff.mpr ⟨det, rfl⟩,
    wellFormed_flipExits fits', det', fun word => ?_⟩
  rw [accepts_flipExits_iff fits' det' A.total_complete, A.alphabet_complete]
  simp only [Alphabet.mem_visible]
  refine and_congr_right fun inside => ?_
  rw [accepts_complete fits fun mem => (inside _ mem).2 rfl]

/-- The usual name of the sink is taken, and the alphabet contains `ε`. -/
theorem complement_exact_taken_sink :
    let built := ofParts [⟨"_DSFC_", ⟨true, false⟩⟩, ⟨"x", ⟨false, true⟩⟩]
      (OrderedSet.ofList ["a", "ε", "b"]) [.plain "_DSFC_" "a" "x"]
    ∃ A, built = .ok A ∧ A.Deterministic ∧ A.complete.stateNames = ["_DSFC_", "x", "_DSFC_0"] ∧
      A.complete.Total ∧ A.complete.complete = A.complete ∧
      ∃ C, A.complement = .ok C ∧ C.accepts [] = true ∧ C.accepts ["a"] = false ∧
        C.accepts ["a", "b"] = true ∧ C.accepts ["ε"] = false ∧ C.accepts ["c"] = false := by
  intro built
  obtain ⟨A, accepted, det, names, letters, refused⟩ : ∃ A, built = .ok A ∧ A.Deterministic ∧
      A.complete.stateNames = ["_DSFC_", "x", "_DSFC_0"] ∧
      A.alphabet = OrderedSet.ofList ["a", "ε", "b"] ∧
      A.accepts [] = false ∧ A.accepts ["a"] = true ∧ A.accepts ["a", "b"] = false :=
    ⟨_, rfl, by decide, by decide, rfl, by decide⟩
  obtain ⟨total, _, _, again, complement⟩ := complement_exact accepted
  obtain ⟨C, result, _, _, words⟩ := complement det
  refine ⟨A, accepted, det, names, total, again, C, result, ?_⟩
  simp only [Bool.eq_false_iff, ne_eq, words, letters]
  simp [refused, Symbol.epsilon]

end Complement

end LanguageTheory.Automaton

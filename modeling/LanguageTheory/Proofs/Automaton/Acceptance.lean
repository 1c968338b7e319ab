import Mathlib.Logic.Relation
import LanguageTheory.Automaton.Path
import LanguageTheory.Proofs.Collection.DepthFirst
import LanguageTheory.Proofs.Collection.Discovery

/-!
Following all states at once agrees with following one path. The closure of a state holds the states
that silent paths lead to (`mem_closure_iff`), and the closure of a set leaves none of them out
although it skips the states that it holds already (`mem_closureOfAll_iff`). The states after a word
are those that its paths lead to (`mem_statesAfter_iff`), and so `accepts`, which stops when no
state is left, decides `Recognizes` (`accepts_iff_recognizes`).
-/

set_option autoImplicit false
set_option relaxedAutoImplicit false

namespace LanguageTheory.Automaton

variable {A : Automaton}

theorem WellFormed.entry_mem (fits : A.WellFormed) : A.entry ∈ A.states.keys := by
  obtain ⟨role, found, _⟩ := fits.entry_role
  exact OrderedTable.mem_keys_of_get? found

theorem WellFormed.moves_mem (fits : A.WellFormed) {source target : StateName} {label : Symbol}
    (move : A.Moves source label target) : source ∈ A.states.keys ∧ target ∈ A.states.keys := by
  obtain ⟨t, mem, rfl, _, rfl⟩ := move
  exact ⟨fits.source_mem t mem, fits.target_mem t mem⟩

theorem WellFormed.moves_label (fits : A.WellFormed) {source target : StateName} {label : Symbol}
    (visible : label ≠ Symbol.epsilon) (move : A.Moves source label target) :
    label ∈ A.alphabet := by
  obtain ⟨t, mem, _, rfl, _⟩ := move
  exact (fits.label_mem t mem).resolve_left visible

theorem WellFormed.path_mem (fits : A.WellFormed) {source target : StateName} {word : Word}
    (way : A.Path source word target) (mem : source ∈ A.states.keys) :
    target ∈ A.states.keys := by
  induction way with
  | stay name => exact mem
  | silent move _ ih => exact ih (fits.moves_mem move).2
  | read _ move _ ih => exact ih (fits.moves_mem move).2

private theorem silentPath_iff {source target : StateName} :
    A.SilentPath source target ↔
      Relation.ReflTransGen (fun x y => y ∈ A.silentTargets x) source target := by
  constructor
  · intro way
    induction way with
    | stay name => exact .refl
    | silent move _ ih => exact .head (mem_silentTargets.mpr move) ih
  · intro way
    induction way using Relation.ReflTransGen.head_induction_on with
    | refl => exact .stay _
    | head edge _ ih => exact .silent (mem_silentTargets.mp edge) ih

theorem card_stateNames_le (A : Automaton) : A.stateNames.toFinset.card ≤ A.states.size := by
  have few := A.stateNames.toFinset_card_le
  rwa [stateNames, OrderedTable.keys, List.length_map] at few

def untaken (A : Automaton) (visited : SortedSet StateName) : Nat :=
  A.transitions.toList.countP fun t => decide (t.source ∉ visited)

private theorem untaken_insert_le {visited : SortedSet StateName} {name : StateName}
    (new : name ∉ visited) :
    (A.silentTargets name).length + A.untaken (visited.insert name) ≤ A.untaken visited := by
  have leaving : (A.silentTargets name).length ≤ (A.transitionsFrom name).length := by
    rw [silentTargets, List.length_map]
    exact List.length_filter_le _ _
  have parted (l : List Transition) : (l.filter fun t => decide (t.source = name)).length +
      l.countP (fun t => decide (t.source ∉ visited.insert name)) ≤
        l.countP fun t => decide (t.source ∉ visited) := by
    simp only [SortedSet.mem_insert]
    induction l with
    | nil => simp
    | cons t l ih =>
      simp only [List.filter_cons, List.countP_cons, decide_eq_true_eq]
      by_cases here : t.source = name
      · rw [if_pos here, if_neg (not_not_intro (Or.inr here)), if_pos (here ▸ new),
          List.length_cons]
        omega
      · rw [if_neg here]
        by_cases old : t.source ∈ visited
        · rw [if_neg (not_not_intro (Or.inl old)), if_neg (not_not_intro old)]
          exact ih
        · rw [if_pos (not_or.mpr ⟨old, here⟩), if_pos old]
          omega
  exact (Nat.add_le_add_right leaving _).trans (parted A.transitions.toList)

theorem mem_closure_iff {name target : StateName} :
    target ∈ A.closure name ↔ A.SilentPath name target := by
  rw [closure, silentPath_iff]
  refine DepthFirst.mem_reached_iff A.untaken (fun _ _ new => untaken_insert_le new) ?_
  exact Nat.lt_succ_of_le List.countP_le_length

/-- A state that is covered has brought its whole closure with it, so leaving it out loses
nothing. -/
private theorem mem_foldl_addClosure_iff {names : List StateName} {covered : SortedSet StateName}
    (closed : ∀ name ∈ covered, ∀ target ∈ A.closure name, target ∈ covered) {target : StateName} :
    target ∈ names.foldl A.addClosure covered ↔
      target ∈ covered ∨ ∃ name ∈ names, target ∈ A.closure name := by
  induction names generalizing covered with
  | nil => simp
  | cons name names ih =>
    have added {other : StateName} : other ∈ A.addClosure covered name ↔
        other ∈ covered ∨ other ∈ A.closure name := by
      unfold addClosure
      split
      · rename_i old
        exact ⟨Or.inl, fun mem => mem.elim id (closed name old other)⟩
      · exact SortedSet.mem_union
    have still_closed : ∀ source ∈ A.addClosure covered name, ∀ target ∈ A.closure source,
        target ∈ A.addClosure covered name := by
      intro source mem target way
      refine added.mpr ((added.mp mem).imp (fun old => closed source old target way) fun here => ?_)
      exact mem_closure_iff.mpr ((mem_closure_iff.mp here).trans (mem_closure_iff.mp way))
    rw [List.foldl_cons, ih still_closed, added, or_assoc]
    simp

theorem mem_closureOfAll_iff {names : List StateName} {target : StateName} :
    target ∈ A.closureOfAll names ↔ ∃ name ∈ names, target ∈ A.closure name := by
  rw [closureOfAll, mem_foldl_addClosure_iff]
  · simp
  · exact fun name mem => absurd mem (SortedSet.not_mem_empty name)

private theorem mem_targetsOfAll_iff {current : SortedSet StateName} {symbol : Symbol}
    {target : StateName} : target ∈ A.targetsOfAll current symbol ↔
      ∃ source ∈ current, A.Moves source symbol target := by
  simp only [targetsOfAll, SortedSet.mem_ofList, List.mem_flatMap, SortedSet.mem_toList,
    mem_targets_iff_moves]

theorem mem_advance_iff {current : SortedSet StateName} {symbol : Symbol} {target : StateName} :
    target ∈ A.advance current symbol ↔
      ∃ source ∈ current, ∃ middle, A.Moves source symbol middle ∧ A.SilentPath middle target := by
  simp only [advance, mem_closureOfAll_iff, SortedSet.mem_toList, mem_targetsOfAll_iff,
    mem_closure_iff]
  constructor
  · rintro ⟨middle, ⟨source, mem, move⟩, way⟩
    exact ⟨source, mem, middle, move, way⟩
  · rintro ⟨source, mem, middle, move, way⟩
    exact ⟨middle, ⟨source, mem, move⟩, way⟩

theorem not_mem_foldl_advance {current : SortedSet StateName} (nowhere : ∀ name, name ∉ current)
    (word : Word) (name : StateName) : name ∉ word.foldl A.advance current := by
  induction word generalizing current with
  | nil => exact nowhere name
  | cons symbol word ih =>
    apply ih
    intro target mem
    obtain ⟨source, member, _⟩ := mem_advance_iff.mp mem
    exact nowhere source member

/-- The word does not ask for a symbol on which the automaton moves without reading. -/
def Readable (A : Automaton) (word : Word) : Prop :=
  Symbol.epsilon ∈ word → ∀ source target, ¬ A.Moves source Symbol.epsilon target

theorem readable_of_visible {word : Word} (visible : Symbol.epsilon ∉ word) : A.Readable word :=
  fun mem => absurd mem visible

/-- The states that a silently closed set leads to are those at the ends of paths that begin in
it. -/
theorem mem_foldl_advance_iff {word : Word} (readable : A.Readable word)
    {current : SortedSet StateName} {target : StateName}
    (closed : ∀ source ∈ current, ∀ name, A.SilentPath source name → name ∈ current) :
    target ∈ word.foldl A.advance current ↔ ∃ source ∈ current, A.Path source word target := by
  induction word generalizing current with
  | nil =>
    simp only [List.foldl_nil, path_nil_iff]
    exact ⟨fun mem => ⟨target, mem, .stay target⟩, fun ⟨source, mem, way⟩ =>
      closed source mem target way⟩
  | cons symbol word ih =>
    have closed_next : ∀ source ∈ A.advance current symbol, ∀ name,
        A.SilentPath source name → name ∈ A.advance current symbol := by
      intro source mem name way
      obtain ⟨before, member, middle, move, silent⟩ := mem_advance_iff.mp mem
      exact mem_advance_iff.mpr ⟨before, member, middle, move, silent.trans way⟩
    have visible {before after : StateName} (move : A.Moves before symbol after) :
        symbol ≠ Symbol.epsilon := by
      rintro rfl
      exact readable (by simp) before after move
    rw [List.foldl_cons, ih (fun mem => readable (List.mem_cons_of_mem symbol mem)) closed_next]
    constructor
    · rintro ⟨source, mem, way⟩
      obtain ⟨before, member, middle, move, silent⟩ := mem_advance_iff.mp mem
      exact ⟨before, member, .read (visible move) move (silent.path.append way)⟩
    · rintro ⟨source, mem, way⟩
      obtain ⟨_, before, after, silent, move, rest⟩ := path_cons_iff.mp way
      have member := closed source mem before silent
      exact ⟨after, mem_advance_iff.mpr ⟨before, member, after, move, .stay after⟩, rest⟩

theorem mem_statesAfter_iff {word : Word} (readable : A.Readable word)
    {target : StateName} : target ∈ A.statesAfter word ↔ A.Path A.entry word target := by
  unfold statesAfter
  rw [mem_foldl_advance_iff readable]
  · constructor
    · rintro ⟨source, mem, way⟩
      exact (mem_closure_iff.mp mem).path.append way
    · intro way
      exact ⟨A.entry, mem_closure_iff.mpr (.stay A.entry), way⟩
  · intro source mem name way
    exact mem_closure_iff.mpr ((mem_closure_iff.mp mem).trans way)

private theorem acceptsFromSet_eq (A : Automaton) (current : SortedSet StateName) (word : Word) :
    A.acceptsFromSet current word = (word.foldl A.advance current).toList.any A.isExit := by
  induction word generalizing current with
  | nil => rfl
  | cons symbol word ih =>
    rw [acceptsFromSet, List.foldl_cons]
    split
    · rename_i none
      have nowhere : ∀ name, name ∉ A.advance current symbol := by
        intro name mem
        rw [SortedSet.isEmpty_eq_false_iff.mpr ⟨name, mem⟩] at none
        cases none
      symm
      rw [List.any_eq_false]
      exact fun name mem => absurd mem (not_mem_foldl_advance nowhere word name)
    · exact ih _

theorem accepts_eq (A : Automaton) (word : Word) :
    A.accepts word = (A.statesAfter word).toList.any A.isExit := acceptsFromSet_eq A _ word

theorem accepts_iff_recognizes {word : Word} (readable : A.Readable word) :
    A.accepts word = true ↔ A.Recognizes word := by
  simp only [accepts_eq, List.any_eq_true, SortedSet.mem_toList, mem_statesAfter_iff readable]
  rfl

end LanguageTheory.Automaton

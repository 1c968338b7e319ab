import LanguageTheory.Proofs.Automaton.MoveSystem
import LanguageTheory.Proofs.CompositeName
import LanguageTheory.Proofs.Regex.Position

/-!
The automaton of a regular expression. A word of the expression is a word of positions with each
position replaced by its symbol, and a set of positions accepts what one of its members can still
read up to the end marker. So the automaton accepts exactly the words of the expression, and in the
automaton over the symbols of the expression every state lies on an accepting path.
-/

set_option autoImplicit false
set_option relaxedAutoImplicit false

namespace LanguageTheory.Regex

variable {r : Regex}

theorem positions_numbered (r : Regex) (start : Position) :
    (r.numbered start).positions = List.range' start r.width := by
  induction r generalizing start with
  | epsilon => rfl
  | literal symbol => rfl
  | concat first second ihf ihs =>
    simp only [numbered, PositionTree.positions, ihf, ihs, width, List.range'_append_1]
  | union first second ihf ihs =>
    simp only [numbered, PositionTree.positions, ihf, ihs, width, List.range'_append_1]
  | star inner ih => exact ih start

private theorem positions_marked (r : Regex) :
    r.marked.positions = List.range' 1 (r.width + 1) := by
  rw [marked, PositionTree.positions, positions_numbered, PositionTree.positions, endMarker,
    List.range'_1_concat, Nat.add_comm 1 r.width]

theorem nodup_positions_marked (r : Regex) : r.marked.positions.Nodup := by
  rw [positions_marked]
  exact List.nodup_range'

theorem positions_of_leaves (r : Regex) (start : Position) :
    (r.numbered start).leaves.map Prod.fst = (r.numbered start).positions := by
  induction r generalizing start with
  | epsilon => rfl
  | literal symbol => rfl
  | concat first second ihf ihs =>
    simp only [numbered, PositionTree.leaves, PositionTree.positions, List.map_append, ihf, ihs]
  | union first second ihf ihs =>
    simp only [numbered, PositionTree.leaves, PositionTree.positions, List.map_append, ihf, ihs]
  | star inner ih => exact ih start

theorem literals_of_leaves (r : Regex) (start : Position) :
    (r.numbered start).leaves.map Prod.snd = r.literals := by
  induction r generalizing start with
  | epsilon => rfl
  | literal symbol => rfl
  | concat first second ihf ihs =>
    simp only [numbered, PositionTree.leaves, literals, List.map_append, ihf, ihs]
  | union first second ihf ihs =>
    simp only [numbered, PositionTree.leaves, literals, List.map_append, ihf, ihs]
  | star inner ih => exact ih start

theorem leaves_marked (r : Regex) : r.marked.leaves = (r.numbered 1).leaves := by
  rw [marked, PositionTree.leaves, PositionTree.leaves, List.append_nil]

private theorem nodup_leaf_positions (r : Regex) : (r.marked.leaves.map Prod.fst).Nodup := by
  rw [leaves_marked, positions_of_leaves, positions_numbered]
  exact List.nodup_range'

private theorem symbolAt?_marked {p : Position} {symbol : Symbol} :
    r.marked.symbolAt? p = some symbol ↔ (p, symbol) ∈ r.marked.leaves := by
  rw [PositionTree.symbolAt?, Option.map_eq_some_iff]
  constructor
  · rintro ⟨⟨q, s⟩, found, rfl⟩
    have same : q = p := by simpa using List.find?_some found
    exact same ▸ List.mem_of_find?_eq_some found
  · intro mem
    have some_leaf : (r.marked.leaves.find? fun leaf => decide (leaf.1 = p)).isSome = true :=
      List.find?_isSome.mpr ⟨(p, symbol), mem, decide_eq_true rfl⟩
    obtain ⟨leaf, found⟩ := Option.isSome_iff_exists.mp some_leaf
    have same : leaf.1 = p := by simpa using List.find?_some found
    have equal : leaf = (p, symbol) := List.inj_on_of_nodup_map r.nodup_leaf_positions
      (List.mem_of_find?_eq_some found) mem same
    exact ⟨leaf, found, by rw [equal]⟩

private theorem symbolAt?_endMarker (r : Regex) : r.marked.symbolAt? r.endMarker = none := by
  rw [Option.eq_none_iff_forall_ne_some]
  intro symbol found
  have mem : r.endMarker ∈ r.marked.leaves.map Prod.fst :=
    List.mem_map.mpr ⟨_, symbolAt?_marked.mp found, rfl⟩
  rw [leaves_marked, positions_of_leaves, positions_numbered, List.mem_range'_1, endMarker] at mem
  omega

private theorem matches_star_iff_spells {inner : Regex} {tree : PositionTree}
    {symbolAt : Position → Option Symbol}
    (once : ∀ word, inner.Matches word ↔ ∃ positions, tree.Spells positions ∧
      positions.map symbolAt = word.map some) (word : Word) :
    inner.star.Matches word ↔ ∃ positions, tree.star.Spells positions ∧
      positions.map symbolAt = word.map some := by
  constructor
  · intro matched
    obtain ⟨parts, rfl, each⟩ := matches_star_iff.mp matched
    clear matched
    induction parts with
    | nil => exact ⟨[], PositionTree.spells_star_nil _, rfl⟩
    | cons part parts ih =>
      obtain ⟨left, spelled, same⟩ := (once part).mp (each part List.mem_cons_self)
      obtain ⟨right, more, same'⟩ := ih fun other mem => each other (List.mem_cons_of_mem part mem)
      refine ⟨left ++ right, PositionTree.spells_star_append spelled more, ?_⟩
      rw [List.map_append, List.flatten_cons, List.map_append, same, same']
  · rintro ⟨_, ⟨parts, rfl, each⟩, same⟩
    induction parts generalizing word with
    | nil =>
      obtain rfl : word = [] := List.map_eq_nil_iff.mp same.symm
      exact .starNil
    | cons part parts ih =>
      rw [List.flatten_cons, List.map_append] at same
      obtain ⟨u, v, rfl, hu, hv⟩ := List.map_eq_append_iff.mp same.symm
      refine .starAppend ((once u).mpr ⟨part, each part List.mem_cons_self, hu.symm⟩) ?_
      exact ih v (fun other mem => each other (List.mem_cons_of_mem part mem)) hv.symm

private theorem matches_iff_spells {symbolAt : Position → Option Symbol} {start : Position}
    {word : Word}
    (agrees : ∀ p symbol, (p, symbol) ∈ (r.numbered start).leaves → symbolAt p = some symbol) :
    r.Matches word ↔ ∃ positions, (r.numbered start).Spells positions ∧
      positions.map symbolAt = word.map some := by
  induction r generalizing start word with
  | epsilon =>
    rw [matches_epsilon]
    constructor
    · rintro rfl
      exact ⟨[], rfl, rfl⟩
    · rintro ⟨_, rfl, same⟩
      exact List.map_eq_nil_iff.mp same.symm
  | literal symbol =>
    have here : symbolAt start = some symbol := agrees start symbol (by
      simp [numbered, PositionTree.leaves])
    rw [matches_literal]
    constructor
    · rintro rfl
      exact ⟨[start], rfl, by simp [here]⟩
    · rintro ⟨_, rfl, same⟩
      have words : [symbol].map some = word.map some := by simpa [here] using same
      exact ((List.map_injective_iff.mpr (Option.some_injective Symbol)) words).symm
  | concat first second ihf ihs =>
    have in_first := fun p symbol mem => agrees p symbol (List.mem_append_left _ mem)
    have in_second := fun p symbol mem => agrees p symbol (List.mem_append_right _ mem)
    rw [matches_concat]
    constructor
    · rintro ⟨u, v, rfl, hu, hv⟩
      obtain ⟨left, spelled, same⟩ := (ihf in_first).mp hu
      obtain ⟨right, spelled', same'⟩ := (ihs in_second).mp hv
      exact ⟨left ++ right, ⟨left, right, rfl, spelled, spelled'⟩, by
        rw [List.map_append, List.map_append, same, same']⟩
    · rintro ⟨_, ⟨left, right, rfl, spelled, spelled'⟩, same⟩
      rw [List.map_append] at same
      obtain ⟨u, v, rfl, hu, hv⟩ := List.map_eq_append_iff.mp same.symm
      exact ⟨u, v, rfl, (ihf in_first).mpr ⟨left, spelled, hu.symm⟩,
        (ihs in_second).mpr ⟨right, spelled', hv.symm⟩⟩
  | union first second ihf ihs =>
    have in_first := fun p symbol mem => agrees p symbol (List.mem_append_left _ mem)
    have in_second := fun p symbol mem => agrees p symbol (List.mem_append_right _ mem)
    rw [matches_union, ihf in_first, ihs in_second, ← exists_or]
    simp only [numbered, PositionTree.Spells, or_and_right]
  | star inner ih =>
    have inside := fun p symbol mem => agrees p symbol mem
    exact matches_star_iff_spells (fun _ => ih inside) word

/-- From the position on the word can be read up to the end marker. -/
def Reads (r : Regex) (p : Position) (word : Word) : Prop :=
  ∃ positions, r.marked.After p positions ∧
    (p :: positions).map r.marked.symbolAt? = word.map some ++ [none]

private theorem after_endMarker (r : Regex) : r.marked.After r.endMarker [] :=
  PositionTree.after_nil_iff.mpr (by simp [marked, PositionTree.last, PositionTree.nullable])

private theorem reads_nil_iff {p : Position} : r.Reads p [] ↔ p = r.endMarker := by
  constructor
  · rintro ⟨positions, after, same⟩
    obtain ⟨_, rest⟩ := List.cons.inj same
    obtain rfl := List.map_eq_nil_iff.mp rest
    have ends := PositionTree.after_nil_iff.mp after
    simpa [marked, PositionTree.last, PositionTree.nullable] using ends
  · rintro rfl
    exact ⟨[], r.after_endMarker, by simp [symbolAt?_endMarker]⟩

private theorem reads_cons_iff {p : Position} {symbol : Symbol} {word : Word} :
    r.Reads p (symbol :: word) ↔
      (p, symbol) ∈ r.marked.leaves ∧ ∃ q ∈ r.marked.follow p, r.Reads q word := by
  constructor
  · rintro ⟨positions, after, same⟩
    rw [List.map_cons, List.map_cons, List.cons_append] at same
    obtain ⟨here, rest⟩ := List.cons.inj same
    refine ⟨symbolAt?_marked.mp here, ?_⟩
    cases positions with
    | nil => exact absurd rest.symm (by simp)
    | cons q positions =>
      obtain ⟨follows, later⟩ := (PositionTree.after_cons_iff r.nodup_positions_marked).mp after
      exact ⟨q, follows, positions, later, rest⟩
  · rintro ⟨mem, q, follows, positions, later, rest⟩
    refine ⟨q :: positions, ?_, ?_⟩
    · exact (PositionTree.after_cons_iff r.nodup_positions_marked).mpr ⟨follows, later⟩
    · rw [List.map_cons, rest, symbolAt?_marked.mpr mem]
      rfl

private theorem mem_advance_links {positions : PositionSet} {symbol : Symbol} {q : Position} :
    q ∈ Link.advance r.marked.links positions symbol ↔
      ∃ p ∈ positions, (p, symbol) ∈ r.marked.leaves ∧ q ∈ r.marked.follow p := by
  simp only [Link.advance, SortedSet.mem_ofList, List.mem_flatMap, List.mem_filter,
    PositionTree.links, List.mem_map, SortedSet.mem_toList, decide_eq_true_eq]
  constructor
  · rintro ⟨_, ⟨⟨⟨p, s⟩, mem, rfl⟩, member, rfl⟩, follows⟩
    exact ⟨p, member, mem, follows⟩
  · rintro ⟨p, member, mem, follows⟩
    exact ⟨_, ⟨⟨(p, symbol), mem, rfl⟩, member, rfl⟩, follows⟩

private theorem positionSystem_move {alphabet : Alphabet} {positions next : PositionSet}
    {symbol : Symbol} : (r.positionSystem alphabet).move positions symbol = some next ↔
      Link.advance r.marked.links positions symbol = next ∧ ∃ q, q ∈ next := by
  simp only [positionSystem, Option.ite_none_left_eq_some, Option.some.injEq, Bool.not_eq_true,
    SortedSet.isEmpty_eq_false_iff]
  constructor
  · rintro ⟨inhabited, rfl⟩
    exact ⟨rfl, inhabited⟩
  · rintro ⟨rfl, inhabited⟩
    exact ⟨inhabited, rfl⟩

private theorem positionSystem_accepts_iff {alphabet : Alphabet} {positions : PositionSet}
    {word : Word} :
    (r.positionSystem alphabet).Accepts positions word ↔
      (∀ symbol ∈ word, symbol ∈ alphabet) ∧ ∃ p ∈ positions, r.Reads p word := by
  induction word generalizing positions with
  | nil => simp [MoveSystem.Accepts, reads_nil_iff, positionSystem]
  | cons symbol word ih =>
    rw [MoveSystem.Accepts, List.forall_mem_cons]
    constructor
    · rintro ⟨known, next, move, accepted⟩
      obtain ⟨rfl, _⟩ := positionSystem_move.mp move
      obtain ⟨all_known, q, mem, reads⟩ := ih.mp accepted
      obtain ⟨p, member, leaf, follows⟩ := mem_advance_links.mp mem
      exact ⟨⟨known, all_known⟩, p, member, reads_cons_iff.mpr ⟨leaf, q, follows, reads⟩⟩
    · rintro ⟨⟨known, all_known⟩, p, member, reads⟩
      obtain ⟨leaf, q, follows, later⟩ := reads_cons_iff.mp reads
      have mem := mem_advance_links.mpr ⟨p, member, leaf, follows⟩
      exact ⟨known, _, positionSystem_move.mpr ⟨rfl, q, mem⟩, ih.mpr ⟨all_known, q, mem, later⟩⟩

theorem spells_marked_iff {word : List Position} :
    r.marked.Spells word ↔ ∃ inner, (r.numbered 1).Spells inner ∧
      word = inner ++ [r.endMarker] := by
  constructor
  · rintro ⟨inner, ending, rfl, spelled, rfl⟩
    exact ⟨inner, spelled, rfl⟩
  · rintro ⟨inner, spelled, rfl⟩
    exact ⟨inner, [r.endMarker], rfl, spelled, rfl⟩

private theorem exists_first_reads_iff {word : Word} :
    (∃ p ∈ r.marked.first, r.Reads p word) ↔ r.Matches word := by
  have agrees : ∀ p symbol, (p, symbol) ∈ (r.numbered 1).leaves →
      r.marked.symbolAt? p = some symbol := by
    intro p symbol mem
    rw [symbolAt?_marked, leaves_marked]
    exact mem
  rw [matches_iff_spells agrees]
  constructor
  · rintro ⟨p, begins, positions, after, same⟩
    obtain ⟨left, spelled, split⟩ := spells_marked_iff.mp
      ((PositionTree.spells_cons_iff r.nodup_positions_marked).mpr ⟨begins, after⟩)
    rw [split, List.map_append, List.map_singleton, symbolAt?_endMarker] at same
    exact ⟨left, spelled, List.append_cancel_right same⟩
  · rintro ⟨left, spelled, same⟩
    have whole : r.marked.Spells (left ++ [r.endMarker]) :=
      spells_marked_iff.mpr ⟨left, spelled, rfl⟩
    have labels : (left ++ [r.endMarker]).map r.marked.symbolAt? = word.map some ++ [none] := by
      rw [List.map_append, List.map_singleton, symbolAt?_endMarker, same]
    have nonempty : left ++ [r.endMarker] ≠ [] := by simp
    obtain ⟨p, positions, shape⟩ := List.exists_cons_of_ne_nil nonempty
    rw [shape] at whole labels
    obtain ⟨begins, after⟩ := (PositionTree.spells_cons_iff r.nodup_positions_marked).mp whole
    exact ⟨p, begins, positions, after, labels⟩

def IsPositionSet (r : Regex) (positions : PositionSet) : Prop :=
  (∃ p, p ∈ positions) ∧ ∀ p ∈ positions, p ∈ r.marked.positions

private theorem isPositionSet_first (r : Regex) : r.IsPositionSet r.marked.first := by
  refine ⟨?_, fun p mem => PositionTree.mem_positions_of_first mem⟩
  obtain ⟨word, spelled⟩ := r.marked.exists_spells
  cases word with
  | nil =>
    have nullable := PositionTree.spells_nil_iff.mp spelled
    simp [marked, PositionTree.nullable] at nullable
  | cons p word =>
    exact ⟨p, ((PositionTree.spells_cons_iff r.nodup_positions_marked).mp spelled).1⟩

private theorem isPositionSet_move {alphabet : Alphabet} {positions next : PositionSet}
    {symbol : Symbol} (move : (r.positionSystem alphabet).move positions symbol = some next) :
    r.IsPositionSet next := by
  obtain ⟨rfl, inhabited⟩ := positionSystem_move.mp move
  refine ⟨inhabited, fun q mem => ?_⟩
  obtain ⟨p, _, _, follows⟩ := mem_advance_links.mp mem
  exact PositionTree.mem_positions_of_follow follows

theorem isPositionSet_of_met {alphabet : Alphabet} {bound : Nat} {positions : PositionSet}
    (met : positions ∈ (r.positionSystem alphabet).configurations bound) :
    r.IsPositionSet positions :=
  MoveSystem.configurations_invariant bound r.isPositionSet_first
    (fun _ _ _ _ _ move => isPositionSet_move move) positions met

private theorem bounded_positionSystem (r : Regex) (alphabet : Alphabet) :
    (r.positionSystem alphabet).Bounded (2 ^ (r.width + 1) + 1) := by
  have few : r.marked.positions.toFinset.card ≤ r.width + 1 := by
    rw [positions_marked]
    simpa using (List.range' 1 (r.width + 1)).toFinset_card_le
  exact MoveSystem.bounded_of_subsets few fun _ met p mem =>
    List.mem_toFinset.mpr ((isPositionSet_of_met met).2 p mem)

private theorem voiced_positionSystem (visible : Symbol.epsilon ∉ r.literals) (alphabet : Alphabet)
    (bound : Nat) : (r.positionSystem alphabet).Voiced bound := by
  intro _ positions _
  rw [Option.eq_none_iff_forall_ne_some]
  intro next move
  obtain ⟨rfl, q, mem⟩ := positionSystem_move.mp move
  obtain ⟨p, _, leaf, _⟩ := mem_advance_links.mp mem
  rw [leaves_marked] at leaf
  apply visible
  rw [← r.literals_of_leaves 1]
  exact List.mem_map.mpr ⟨_, leaf, rfl⟩

theorem acceptsFrom_automatonOver (visible : Symbol.epsilon ∉ r.literals) {alphabet : Alphabet}
    {positions : PositionSet}
    (met : positions ∈ (r.positionSystem alphabet).configurations (2 ^ (r.width + 1) + 1))
    {word : Word} : (r.automatonOver alphabet).AcceptsFrom (PositionSet.name positions) word ↔
      (∀ symbol ∈ word, symbol ∈ alphabet) ∧ ∃ p ∈ positions, r.Reads p word := by
  have apart : ∀ c d, r.IsPositionSet c → r.IsPositionSet d →
      PositionSet.name c = PositionSet.name d → c = d := by
    rintro c d ⟨⟨_, hc⟩, _⟩ ⟨⟨_, hd⟩, _⟩ same
    exact PositionSet.name_inj hc hd same
  rw [← positionSystem_accepts_iff]
  exact MoveSystem.acceptsFrom_automaton (voiced_positionSystem visible alphabet _)
    (fun c met symbol mem d move => MoveSystem.configurations_closed
      (bounded_positionSystem r alphabet) r.isPositionSet_first
      (fun _ _ _ _ _ move => isPositionSet_move move) apart met mem move) met

private theorem start_mem_configurations (r : Regex) (alphabet : Alphabet) (bound : Nat) :
    r.marked.first ∈ (r.positionSystem alphabet).configurations bound :=
  MoveSystem.start_mem (P := r.IsPositionSet) r.isPositionSet_first
    (fun _ _ _ _ _ move => isPositionSet_move move)
    (fun _ _ hc hd same => PositionSet.name_inj hc.1.choose_spec hd.1.choose_spec same)

theorem wellFormed_automatonOver (r : Regex) (alphabet : Alphabet) :
    (r.automatonOver alphabet).WellFormed :=
  MoveSystem.wellFormed_automaton (bounded_positionSystem r alphabet)

theorem deterministic_automatonOver (visible : Symbol.epsilon ∉ r.literals) (alphabet : Alphabet) :
    (r.automatonOver alphabet).Deterministic :=
  MoveSystem.deterministic_automaton (voiced_positionSystem visible alphabet _)

private theorem accepts_automatonOver_iff (visible : Symbol.epsilon ∉ r.literals)
    (alphabet : Alphabet) (word : Word) : (r.automatonOver alphabet).accepts word = true ↔
      (∀ symbol ∈ word, symbol ∈ alphabet) ∧ r.Matches word := by
  rw [(deterministic_automatonOver visible alphabet).accepts_iff,
    ← exists_first_reads_iff]
  exact acceptsFrom_automatonOver visible (start_mem_configurations r alphabet _)

private theorem exists_symbols {positions : List Position}
    (inside : ∀ p ∈ positions, p ∈ (r.numbered 1).positions) :
    ∃ word : Word, positions.map r.marked.symbolAt? = word.map some ∧
      ∀ symbol ∈ word, symbol ∈ r.literals := by
  induction positions with
  | nil => exact ⟨[], rfl, by simp⟩
  | cons p positions ih =>
    obtain ⟨word, labels, known⟩ := ih fun q mem => inside q (List.mem_cons_of_mem p mem)
    have here := inside p List.mem_cons_self
    rw [← positions_of_leaves] at here
    obtain ⟨⟨p, symbol⟩, leaf, rfl⟩ := List.mem_map.mp here
    have literal : symbol ∈ r.literals := by
      rw [← r.literals_of_leaves 1]
      exact List.mem_map.mpr ⟨_, leaf, rfl⟩
    refine ⟨symbol :: word, ?_, List.forall_mem_cons.mpr ⟨literal, known⟩⟩
    rw [List.map_cons, List.map_cons, labels, symbolAt?_marked.mpr (leaves_marked r ▸ leaf)]

private theorem exists_reads {p : Position} (mem : p ∈ r.marked.positions) :
    ∃ word, (∀ symbol ∈ word, symbol ∈ r.alphabet) ∧ r.Reads p word := by
  obtain ⟨positions, after⟩ := PositionTree.exists_after mem
  rcases id after with ⟨left, right, rfl, inside, ends⟩ | ⟨rfl, rfl⟩
  · obtain rfl : right = [r.endMarker] := ends
    have members : ∀ q ∈ p :: left, q ∈ (r.numbered 1).positions :=
      List.forall_mem_cons.mpr
        ⟨PositionTree.mem_positions_of_after inside, PositionTree.after_mem inside⟩
    obtain ⟨word, labels, known⟩ := exists_symbols members
    refine ⟨word, fun symbol h => OrderedSet.mem_ofList.mpr (known symbol h), _, after, ?_⟩
    rw [← List.cons_append, List.map_append, labels, List.map_singleton, symbolAt?_endMarker]
  · exact ⟨[], by simp, reads_nil_iff.mpr rfl⟩

/-- The automaton of an expression without the literal `ε` is deterministic and accepts the words of
the expression over the given symbols. Over the symbols of the expression itself, every state can be
reached and leads to an accepting one. -/
theorem automatonOver_exact (visible : Symbol.epsilon ∉ r.literals) :
    (∀ alphabet : Alphabet, (r.automatonOver alphabet).WellFormed ∧
      (r.automatonOver alphabet).Deterministic ∧
      ∀ word, (r.automatonOver alphabet).accepts word = true ↔
        (∀ symbol ∈ word, symbol ∈ alphabet) ∧ r.Matches word) ∧
    ∀ name ∈ r.automaton.stateNames,
      (∃ word, r.automaton.Path r.automaton.entry word name) ∧
        ∃ word, r.automaton.AcceptsFrom name word := by
  refine ⟨fun alphabet => ?_, fun name mem => ⟨?_, ?_⟩⟩
  · exact ⟨wellFormed_automatonOver r alphabet, deterministic_automatonOver visible alphabet,
      accepts_automatonOver_iff visible alphabet⟩
  · exact MoveSystem.path_to_state (voiced_positionSystem visible r.alphabet _) mem
  · change name ∈ ((r.positionSystem r.alphabet).automaton _).stateNames at mem
    rw [MoveSystem.stateNames_automaton] at mem
    obtain ⟨positions, met, rfl⟩ := List.mem_map.mp mem
    obtain ⟨⟨p, member⟩, inside⟩ := isPositionSet_of_met met
    obtain ⟨word, known, reads⟩ := exists_reads (inside p member)
    exact ⟨word, (acceptsFrom_automatonOver visible met).mpr ⟨known, p, member, reads⟩⟩

theorem automatonOver_exact_ends_in_a :
    let r := Regex.concat (.star (.union (.literal "a") (.literal "b"))) (.literal "a")
    Symbol.epsilon ∉ r.literals ∧ (r.automatonOver r.alphabet).accepts ["b", "a"] = true ∧
      "1,2,3,4" ∈ r.automaton.stateNames ∧ ∃ word, r.automaton.AcceptsFrom "1,2,3,4" word := by
  intro r
  have exact := automatonOver_exact (r := r) (by decide)
  have matched : r.Matches ["b", "a"] :=
    .concat (u := ["b"]) (.starAppend (u := ["b"]) (.unionRight (.literal "b")) .starNil)
      (.literal "a")
  have mem : "1,2,3,4" ∈ r.automaton.stateNames := by decide
  refine ⟨by decide, ((exact.1 r.alphabet).2.2 _).mpr ⟨by decide, matched⟩, mem, ?_⟩
  exact (exact.2 "1,2,3,4" mem).2

end LanguageTheory.Regex

import LanguageTheory.Proofs.Automaton.Operations
import LanguageTheory.Proofs.FreshName

/-!
The union of two automata. Each of them is found again in the result, state by state (`Embeds`), and
no move leads out of its part; the new entry only moves to the two old ones. So the union accepts
what either automaton accepts (`recognizes_join`).
-/

set_option autoImplicit false
set_option relaxedAutoImplicit false

namespace LanguageTheory.Automaton

variable {A B C D : Automaton}

section Embedding

variable {place : StateName → StateName}

/-- The states of an automaton have places in another one, where the same moves lead on and the same
states accept. -/
structure Embeds (A C : Automaton) (place : StateName → StateName) : Prop where
  moves : ∀ name ∈ A.stateNames, ∀ label target,
    C.Moves (place name) label target ↔ ∃ next, A.Moves name label next ∧ place next = target
  exits : ∀ name ∈ A.stateNames, C.isExit (place name) = A.isExit name

private theorem Embeds.trans {further : StateName → StateName} (first : A.Embeds C place)
    (second : C.Embeds D further) (inside : ∀ name ∈ A.stateNames, place name ∈ C.stateNames) :
    A.Embeds D (further ∘ place) where
  moves name mem label target := by
    rw [Function.comp_apply, second.moves _ (inside name mem)]
    constructor
    · rintro ⟨middle, move, rfl⟩
      obtain ⟨next, old, rfl⟩ := (first.moves name mem label middle).mp move
      exact ⟨next, old, rfl⟩
    · rintro ⟨next, old, rfl⟩
      exact ⟨place next, (first.moves name mem label _).mpr ⟨next, old, rfl⟩, rfl⟩
  exits name mem := (second.exits _ (inside name mem)).trans (first.exits name mem)

private theorem Embeds.path_of_path (embeds : A.Embeds C place) (linked : A.Linked)
    {name : StateName} {word : Word} {last : StateName} (mem : name ∈ A.stateNames)
    (way : A.Path name word last) :
    C.Path (place name) word (place last) := by
  induction way with
  | stay name => exact .stay _
  | silent move _ ih =>
    exact .silent ((embeds.moves _ mem _ _).mpr ⟨_, move, rfl⟩) (ih (linked.moves_mem move))
  | read visible move _ ih =>
    exact .read visible ((embeds.moves _ mem _ _).mpr ⟨_, move, rfl⟩) (ih (linked.moves_mem move))

private theorem Embeds.exists_path (embeds : A.Embeds C place) (linked : A.Linked)
    {name : StateName} {word : Word} {target : StateName} (mem : name ∈ A.stateNames)
    (way : C.Path (place name) word target) :
    ∃ last ∈ A.stateNames, A.Path name word last ∧ place last = target := by
  generalize from_place : place name = source at way
  induction way generalizing name with
  | stay _ => exact ⟨name, mem, .stay name, from_place⟩
  | silent move _ ih =>
    subst from_place
    obtain ⟨next, old, same⟩ := (embeds.moves name mem _ _).mp move
    obtain ⟨last, inside, way, reached⟩ := ih (linked.moves_mem old) same
    exact ⟨last, inside, .silent old way, reached⟩
  | read visible move _ ih =>
    subst from_place
    obtain ⟨next, old, same⟩ := (embeds.moves name mem _ _).mp move
    obtain ⟨last, inside, way, reached⟩ := ih (linked.moves_mem old) same
    exact ⟨last, inside, .read visible old way, reached⟩

private theorem Embeds.acceptsFrom_iff (embeds : A.Embeds C place) (linked : A.Linked)
    {name : StateName} {word : Word} (mem : name ∈ A.stateNames) :
    C.AcceptsFrom (place name) word ↔ A.AcceptsFrom name word := by
  constructor
  · rintro ⟨_, way, accepting⟩
    obtain ⟨last, inside, old, rfl⟩ := embeds.exists_path linked mem way
    exact ⟨last, old, (embeds.exits last inside) ▸ accepting⟩
  · rintro ⟨last, way, accepting⟩
    have inside : last ∈ A.stateNames := mem_keys_of_isExit accepting
    exact ⟨place last, embeds.path_of_path linked mem way,
      (embeds.exits last inside).trans accepting⟩

private theorem Linked.moves_source_mem (linked : A.Linked) {source target : StateName}
    {label : Symbol} (move : A.Moves source label target) : source ∈ A.stateNames := by
  obtain ⟨t, mem, rfl, _, _⟩ := move
  exact linked.source_mem t mem

private theorem embeds_of_part
    (moves : ∀ name ∈ A.stateNames, ∀ label target, C.Moves name label target ↔
      A.Moves name label target)
    (exits : ∀ name role, A.states.get? name = some role → C.isExit name = role.isExit) :
    A.Embeds C id where
  moves name mem label target := by
    rw [id_eq, moves name mem]
    exact ⟨fun move => ⟨target, move, rfl⟩, fun ⟨_, move, same⟩ => same ▸ move⟩
  exits name mem := by
    obtain ⟨role, found⟩ := OrderedTable.mem_keys_iff.mp mem
    rw [id_eq, exits name role found, isExit, found]
    rfl

end Embedding

section Suffix

variable {suffix : String}

private theorem append_suffix_injective (suffix : String) :
    Function.Injective fun name : StateName => name ++ suffix := by
  intro first second same
  have texts := congrArg String.toList same
  rw [String.toList_append, String.toList_append] at texts
  exact String.toList_inj.mp (List.append_cancel_right texts)

private theorem entries_withSuffix : (A.withSuffix suffix).states.entries =
    A.states.entries.map fun e => (e.1 ++ suffix, e.2) := by
  apply OrderedTable.entries_ofList
  have renamed := List.Nodup.map (append_suffix_injective suffix) A.states.nodup
  simpa [Function.comp_def] using renamed

private theorem stateNames_withSuffix :
    (A.withSuffix suffix).stateNames = A.stateNames.map fun name => name ++ suffix := by
  simp only [stateNames, OrderedTable.keys, entries_withSuffix, List.map_map]
  rfl

private theorem embeds_withSuffix (A : Automaton) (suffix : String) :
    A.Embeds (A.withSuffix suffix) fun name => name ++ suffix where
  moves name mem label target := by
    constructor
    · rintro ⟨t, edge, source, rfl, rfl⟩
      obtain ⟨old, member, rfl⟩ := OrderedSet.mem_map.mp edge
      exact ⟨old.target, ⟨old, member, append_suffix_injective suffix source, rfl, rfl⟩, rfl⟩
    · rintro ⟨next, ⟨old, member, rfl, rfl, rfl⟩, rfl⟩
      exact ⟨_, OrderedSet.mem_map.mpr ⟨old, member, rfl⟩, rfl, rfl, rfl⟩
  exits name mem := by
    obtain ⟨role, found⟩ := OrderedTable.mem_keys_iff.mp mem
    have moved : (A.withSuffix suffix).states.get? (name ++ suffix) = some role := by
      rw [OrderedTable.get?_eq_some_iff, entries_withSuffix]
      exact List.mem_map_of_mem (OrderedTable.get?_eq_some_iff.mp found)
    rw [isExit, isExit, found, moved]

private theorem suffixes_apart (first second : StateName) : first ++ "_1" ≠ second ++ "_2" := by
  intro same
  have lasts := congrArg (fun text => text.toList.getLast?) same
  simp at lasts

end Suffix

section Join

variable {stem : String}

def ShareName (A B : Automaton) : Prop := ∃ name ∈ A.stateNames, name ∈ B.stateNames

private theorem entry_join_not_mem (A B : Automaton) (stem : String) :
    (A.join B stem).entry ∉ A.stateNames ++ B.stateNames :=
  StateNameSupply.nextFree_not_mem _ _

private theorem entries_join (apart : ¬ A.ShareName B) : (A.join B stem).states.entries =
    ((A.join B stem).entry, ⟨true, false⟩) :: (A.inner ++ B.inner) := by
  apply OrderedTable.entries_ofList
  have names : (A.inner ++ B.inner).map Prod.fst = A.stateNames ++ B.stateNames := by
    simp [inner, stateNames, OrderedTable.keys, Function.comp_def]
  rw [List.map_cons, names, List.nodup_cons, List.nodup_append]
  refine ⟨entry_join_not_mem A B stem, A.states.nodup, B.states.nodup, ?_⟩
  rintro name left _ right rfl
  exact apart ⟨name, left, right⟩

private theorem stateNames_join (apart : ¬ A.ShareName B) :
    (A.join B stem).stateNames = (A.join B stem).entry :: (A.stateNames ++ B.stateNames) := by
  simp [stateNames, OrderedTable.keys, entries_join apart, inner, Function.comp_def]

private theorem get?_join (apart : ¬ A.ShareName B) {name : StateName} {role : StateRole} :
    (A.join B stem).states.get? name = some role ↔
      (name = (A.join B stem).entry ∧ role = ⟨true, false⟩) ∨
      (∃ old, A.states.get? name = some old ∧ role = ⟨false, old.isExit⟩) ∨
      ∃ old, B.states.get? name = some old ∧ role = ⟨false, old.isExit⟩ := by
  have member {C : Automaton} : (name, role) ∈ C.inner ↔
      ∃ old, C.states.get? name = some old ∧ role = ⟨false, old.isExit⟩ := by
    simp only [inner, List.mem_map, Prod.mk.injEq, OrderedTable.get?_eq_some_iff]
    constructor
    · rintro ⟨⟨_, old⟩, mem, rfl, rfl⟩
      exact ⟨old, mem, rfl⟩
    · rintro ⟨old, mem, rfl⟩
      exact ⟨(name, old), mem, rfl, rfl⟩
  rw [OrderedTable.get?_eq_some_iff, entries_join apart, List.mem_cons, List.mem_append,
    member, member, Prod.mk.injEq]

private theorem wellFormed_join (left : A.Linked) (right : B.Linked) (apart : ¬ A.ShareName B)
    (stem : String) :
    (A.join B stem).WellFormed where
  entry_role := ⟨_, (get?_join apart).mpr (Or.inl ⟨rfl, rfl⟩), rfl⟩
  entry_unique name role found isEntry := by
    rcases (get?_join apart).mp found with ⟨same, _⟩ | ⟨_, _, rfl⟩ | ⟨_, _, rfl⟩
    · exact same
    · cases isEntry
    · cases isEntry
  source_mem := (linked_join left right stem).source_mem
  target_mem := (linked_join left right stem).target_mem
  label_mem := (linked_join left right stem).label_mem

private theorem moves_join {source target : StateName} {label : Symbol} :
    (A.join B stem).Moves source label target ↔
      (source = (A.join B stem).entry ∧ label = Symbol.epsilon ∧
        (target = A.entry ∨ target = B.entry)) ∨
        A.Moves source label target ∨ B.Moves source label target := by
  constructor
  · rintro ⟨t, mem, rfl, rfl, rfl⟩
    rcases mem_transitions_join.mp mem with rfl | rfl | old | old
    · exact Or.inl ⟨rfl, rfl, Or.inl rfl⟩
    · exact Or.inl ⟨rfl, rfl, Or.inr rfl⟩
    · exact Or.inr (Or.inl ⟨t, old, rfl, rfl, rfl⟩)
    · exact Or.inr (Or.inr ⟨t, old, rfl, rfl, rfl⟩)
  · rintro (⟨rfl, rfl, rfl | rfl⟩ | ⟨t, old, rfl, rfl, rfl⟩ | ⟨t, old, rfl, rfl, rfl⟩)
    · exact ⟨_, mem_transitions_join.mpr (Or.inl rfl), rfl, rfl, rfl⟩
    · exact ⟨_, mem_transitions_join.mpr (Or.inr (Or.inl rfl)), rfl, rfl, rfl⟩
    · exact ⟨t, mem_transitions_join.mpr (Or.inr (Or.inr (Or.inl old))), rfl, rfl, rfl⟩
    · exact ⟨t, mem_transitions_join.mpr (Or.inr (Or.inr (Or.inr old))), rfl, rfl, rfl⟩

private theorem isExit_join_of_get? (apart : ¬ A.ShareName B) {name : StateName} {role : StateRole}
    (found : A.states.get? name = some role ∨ B.states.get? name = some role) :
    (A.join B stem).isExit name = role.isExit := by
  have stored : (A.join B stem).states.get? name = some ⟨false, role.isExit⟩ :=
    (get?_join apart).mpr (Or.inr (found.imp (fun h => ⟨role, h, rfl⟩) fun h => ⟨role, h, rfl⟩))
  rw [isExit, stored]
  rfl

end Join

section SideBySide

variable {left right : StateName → StateName} {stem : String}

/-- The automaton has a new entry and, at different places, the states of two automata; the entry
only moves to the two old entries, without reading. -/
structure SideBySide (A B C : Automaton) (left right : StateName → StateName) : Prop where
  names : C.stateNames = C.entry :: (A.stateNames.map left ++ B.stateNames.map right)
  first : A.Embeds C left
  second : B.Embeds C right
  entry_moves : ∀ label target, C.Moves C.entry label target ↔
    label = Symbol.epsilon ∧ (target = left A.entry ∨ target = right B.entry)
  entry_exit : C.isExit C.entry = false

private theorem sideBySide_join (linked : A.Linked) (linked' : B.Linked) (apart : ¬ A.ShareName B)
    (stem : String) : A.SideBySide B (A.join B stem) id id := by
  have new := entry_join_not_mem A B stem
  rw [List.mem_append, not_or] at new
  refine ⟨by simpa using stateNames_join apart, ?_, ?_, fun label target => ?_, ?_⟩
  · refine embeds_of_part (fun name mem label target => ?_) fun name role found =>
      isExit_join_of_get? apart (Or.inl found)
    rw [moves_join]
    constructor
    · rintro (⟨rfl, _⟩ | move | move)
      · exact absurd mem new.1
      · exact move
      · exact absurd ⟨name, mem, linked'.moves_source_mem move⟩ apart
    · exact fun move => Or.inr (Or.inl move)
  · refine embeds_of_part (fun name mem label target => ?_) fun name role found =>
      isExit_join_of_get? apart (Or.inr found)
    rw [moves_join]
    constructor
    · rintro (⟨rfl, _⟩ | move | move)
      · exact absurd mem new.2
      · exact absurd ⟨name, linked.moves_source_mem move, mem⟩ apart
      · exact move
    · exact fun move => Or.inr (Or.inr move)
  · rw [moves_join]
    constructor
    · rintro (⟨_, silent, reached⟩ | move | move)
      · exact ⟨silent, reached⟩
      · exact absurd (linked.moves_source_mem move) new.1
      · exact absurd (linked'.moves_source_mem move) new.2
    · exact fun ⟨silent, reached⟩ => Or.inl ⟨rfl, silent, reached⟩
  · have stored : (A.join B stem).states.get? (A.join B stem).entry = some ⟨true, false⟩ :=
      (get?_join apart).mpr (Or.inl ⟨rfl, rfl⟩)
    rw [isExit, stored]
    rfl

private theorem SideBySide.of_suffixes {suffix suffix' : String}
    (side : (A.withSuffix suffix).SideBySide (B.withSuffix suffix') C id id) :
    A.SideBySide B C (fun name => name ++ suffix) fun name => name ++ suffix' where
  names := by
    rw [side.names, stateNames_withSuffix, stateNames_withSuffix, List.map_id, List.map_id]
  first := by
    refine (embeds_withSuffix A suffix).trans side.first fun name mem => ?_
    rw [stateNames_withSuffix]
    exact List.mem_map_of_mem mem
  second := by
    refine (embeds_withSuffix B suffix').trans side.second fun name mem => ?_
    rw [stateNames_withSuffix]
    exact List.mem_map_of_mem mem
  entry_moves := side.entry_moves
  entry_exit := side.entry_exit

private theorem SideBySide.recognizes_iff (side : A.SideBySide B C left right) (linked : A.Linked)
    (linked' : B.Linked) {word : Word} :
    C.Recognizes word ↔ A.Recognizes word ∨ B.Recognizes word := by
  rw [Recognizes, Recognizes, Recognizes, ← side.first.acceptsFrom_iff linked linked.entry_mem,
    ← side.second.acceptsFrom_iff linked' linked'.entry_mem]
  constructor
  · rintro ⟨last, way, accepting⟩
    cases way with
    | stay _ =>
      rw [side.entry_exit] at accepting
      cases accepting
    | silent move rest =>
      obtain ⟨_, rfl | rfl⟩ := (side.entry_moves _ _).mp move
      · exact Or.inl ⟨last, rest, accepting⟩
      · exact Or.inr ⟨last, rest, accepting⟩
    | read visible move _ => exact absurd ((side.entry_moves _ _).mp move).1 visible
  · rintro (⟨last, way, accepting⟩ | ⟨last, way, accepting⟩)
    · exact ⟨last, .silent ((side.entry_moves _ _).mpr ⟨rfl, Or.inl rfl⟩) way, accepting⟩
    · exact ⟨last, .silent ((side.entry_moves _ _).mpr ⟨rfl, Or.inr rfl⟩) way, accepting⟩

end SideBySide

section Union

variable {rename : Bool} {stem : String}

private theorem shareName_of_sharedState? {name : StateName}
    (shared : A.sharedState? B = some name) :
    name ∈ A.stateNames ∧ name ∈ B.stateNames := by
  have found : B.stateNames.find? (fun name => decide (name ∈ A.stateNames)) = some name := shared
  have used := List.find?_some found
  exact ⟨of_decide_eq_true used, List.mem_of_find?_eq_some found⟩

private theorem sharedState?_eq_none_iff : A.sharedState? B = none ↔ ¬ A.ShareName B := by
  rw [sharedState?, List.find?_eq_none]
  constructor
  · rintro none ⟨name, left, right⟩
    exact none name right (decide_eq_true left)
  · intro apart name right left
    exact apart ⟨name, of_decide_eq_true left, right⟩

private theorem not_shareName_suffixes (A B : Automaton) :
    ¬ (A.withSuffix "_1").ShareName (B.withSuffix "_2") := by
  rintro ⟨name, left, right⟩
  rw [stateNames_withSuffix] at left right
  obtain ⟨first, _, rfl⟩ := List.mem_map.mp left
  obtain ⟨second, _, same⟩ := List.mem_map.mp right
  exact suffixes_apart first second same.symm

private theorem union_eq_error_iff {e : Error} : A.union B rename stem = .error e ↔
    rename = false ∧ ∃ name, A.sharedState? B = some name ∧ e = .stateCollision name := by
  unfold union
  cases A.sharedState? B with
  | none => simp
  | some name => cases rename <;> simp [eq_comm]

theorem sideBySide_union (linked : A.Linked) (linked' : B.Linked)
    (result : A.union B rename stem = .ok C) :
    C.WellFormed ∧ ∃ left right, A.SideBySide B C left right := by
  unfold union at result
  split at result
  · rename_i none
    have apart := sharedState?_eq_none_iff.mp none
    obtain rfl := Except.ok.inj result
    exact ⟨wellFormed_join linked linked' apart stem, id, id,
      sideBySide_join linked linked' apart stem⟩
  · split at result
    · obtain rfl := Except.ok.inj result
      have renamed := linked_withSuffix linked "_1"
      have renamed' := linked_withSuffix linked' "_2"
      have apart := not_shareName_suffixes A B
      exact ⟨wellFormed_join renamed renamed' apart stem, _, _,
        (sideBySide_join renamed renamed' apart stem).of_suffixes⟩
    · cases result

/-- The union of two automata is refused only for a state name that both have, and only if renaming
is not allowed. Otherwise it consists of the two automata and a new entry, and it accepts exactly
the words that one of them accepts. -/
theorem union_exact {states states' : List State} {alphabet alphabet' : Alphabet}
    {transitions transitions' : List Transition}
    (built : ofParts states alphabet transitions = .ok A)
    (built' : ofParts states' alphabet' transitions' = .ok B) (rename : Bool) (stem : String) :
    ((∃ e, A.union B rename stem = .error e) ↔ rename = false ∧ A.ShareName B) ∧
    (∀ e, A.union B rename stem = .error e →
      ∃ name, e = .stateCollision name ∧ name ∈ A.stateNames ∧ name ∈ B.stateNames) ∧
    ∀ C, A.union B rename stem = .ok C →
      C.WellFormed ∧ (∃ left right, A.SideBySide B C left right) ∧
        ∀ word, Symbol.epsilon ∉ word →
          (C.accepts word = true ↔ A.accepts word = true ∨ B.accepts word = true) := by
  have fits := wellFormed_of_ofParts built
  have fits' := wellFormed_of_ofParts built'
  refine ⟨⟨?_, ?_⟩, ?_, ?_⟩
  · rintro ⟨e, refused⟩
    obtain ⟨fixed, name, shared, _⟩ := union_eq_error_iff.mp refused
    exact ⟨fixed, name, shareName_of_sharedState? shared⟩
  · rintro ⟨fixed, shares⟩
    cases shared : A.sharedState? B with
    | none => exact absurd shares (sharedState?_eq_none_iff.mp shared)
    | some name => exact ⟨_, union_eq_error_iff.mpr ⟨fixed, name, shared, rfl⟩⟩
  · intro e refused
    obtain ⟨_, name, shared, same⟩ := union_eq_error_iff.mp refused
    exact ⟨name, same, shareName_of_sharedState? shared⟩
  · intro C result
    obtain ⟨well, left, right, side⟩ := sideBySide_union fits.linked fits'.linked result
    refine ⟨well, ⟨left, right, side⟩, fun word visible => ?_⟩
    have readable {X : Automaton} : X.Readable word := readable_of_visible visible
    rw [accepts_iff_recognizes readable, accepts_iff_recognizes readable,
      accepts_iff_recognizes readable]
    exact side.recognizes_iff fits.linked fits'.linked

theorem union_exact_suffixed_names :
    let built := ofParts [⟨"q", ⟨true, false⟩⟩, ⟨"q_1", ⟨false, true⟩⟩] (OrderedSet.ofList ["a"])
      [.plain "q" "a" "q_1", .plain "q_1" "ε" "q"]
    let built' := ofParts [⟨"q", ⟨true, true⟩⟩, ⟨"q_2", ⟨false, false⟩⟩] (OrderedSet.ofList ["b"])
      [.plain "q" "b" "q_2", .plain "q_2" "b" "q"]
    ∃ A B, built = .ok A ∧ built' = .ok B ∧
      A.union B false "q_" = .error (.stateCollision "q") ∧ A.ShareName B ∧
      ∃ C, A.union B true "q_" = .ok C ∧ C.stateNames = ["q_0", "q_1", "q_1_1", "q_2", "q_2_2"] ∧
        C.accepts ["a", "a"] = true ∧ C.accepts ["b", "b"] = true ∧
        C.accepts ["a", "b"] = false := by
  intro built built'
  have accepted : built = .ok _ := rfl
  have accepted' : built' = .ok _ := rfl
  have refused := (union_exact accepted accepted' false "q_").1.mp ⟨.stateCollision "q", rfl⟩
  refine ⟨_, _, accepted, accepted', rfl, refused.2, _, rfl, by decide, ?_⟩
  have words := ((union_exact accepted accepted' true "q_").2.2 _ rfl).2.2
  refine ⟨(words _ (by decide)).mpr (by decide), (words _ (by decide)).mpr (by decide), ?_⟩
  rw [Bool.eq_false_iff, ne_eq, words _ (by decide)]
  decide

end Union

end LanguageTheory.Automaton

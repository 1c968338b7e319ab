import Mathlib.Data.Set.Function
import LanguageTheory.Proofs.Automaton.Operations
import LanguageTheory.Proofs.FreshName

/-!
The product of two deterministic automata. However their states are named, the pairs of states that
a common word reaches get distinct names (`productName_inj`), so a state of the product stands for
one pair, and a path of the product is a pair of paths that spell the same word (`path_product`).
-/

set_option autoImplicit false
set_option relaxedAutoImplicit false

namespace LanguageTheory.Automaton

variable {A B : Automaton}

section Names

variable {taken : List StateName} {pairs : List (StateName × StateName)}

private theorem pairName_not_mem (taken : List StateName) (pair : StateName × StateName) :
    pairName taken pair ∉ taken := by
  simp only [pairName]
  split
  · exact StateNameSupply.nextFree_not_mem _ taken
  · assumption

private theorem not_mem_taken_of_named {pair : StateName × StateName} {name : StateName}
    (named : (pair, name) ∈ namePairs taken pairs) : name ∉ taken := by
  induction pairs generalizing taken with
  | nil => exact absurd named List.not_mem_nil
  | cons first pairs ih =>
    rcases List.mem_cons.mp named with same | later
    · obtain ⟨rfl, rfl⟩ := Prod.mk.inj same
      exact pairName_not_mem taken pair
    · exact fun mem => ih later (List.mem_cons_of_mem _ mem)

private theorem nodup_names_namePairs (taken : List StateName)
    (pairs : List (StateName × StateName)) :
    ((namePairs taken pairs).map Prod.snd).Nodup := by
  induction pairs generalizing taken with
  | nil => exact List.nodup_nil
  | cons pair pairs ih =>
    rw [namePairs, List.map_cons, List.nodup_cons]
    refine ⟨fun again => ?_, ih _⟩
    obtain ⟨e, named, same⟩ := List.mem_map.mp again
    exact not_mem_taken_of_named named (same ▸ List.mem_cons_self)

def productName (A B : Automaton) (pair : StateName × StateName) : StateName :=
  (OrderedTable.lookUp pair (namePairs [] (A.commonPairs B))).getD ""

private theorem mem_namePairs_iff {pair : StateName × StateName} {name : StateName} :
    (pair, name) ∈ namePairs [] (A.commonPairs B) ↔
      pair ∈ A.commonPairs B ∧ A.productName B pair = name := by
  have distinct : ((namePairs [] (A.commonPairs B)).map Prod.fst).Nodup := by
    rw [pairs_namePairs]
    have found := Discovery.nodup_keys_reached id
      (fun pair => (A.commonMoves B pair).map Prod.snd) (A.states.size * B.states.size + 1)
      [(A.entry, B.entry)]
    rwa [List.map_id] at found
  constructor
  · intro named
    refine ⟨?_, ?_⟩
    · exact pairs_namePairs [] (A.commonPairs B) ▸ List.mem_map_of_mem named
    · rw [productName, OrderedTable.lookUp_of_mem distinct named, Option.getD_some]
  · rintro ⟨mem, rfl⟩
    obtain ⟨name, found⟩ := exists_pairName mem
    rw [productName, found, Option.getD_some]
    exact OrderedTable.mem_of_lookUp found

theorem productName_inj {p q : StateName × StateName} (hp : p ∈ A.commonPairs B)
    (hq : q ∈ A.commonPairs B) (same : A.productName B p = A.productName B q) : p = q := by
  have named_p := mem_namePairs_iff.mpr ⟨hp, rfl⟩
  have named_q := mem_namePairs_iff.mpr ⟨hq, same.symm⟩
  have equal := List.inj_on_of_nodup_map (nodup_names_namePairs [] (A.commonPairs B)) named_p
    named_q rfl
  exact congrArg Prod.fst equal

end Names

section States

private theorem get?_product {name : StateName} {role : StateRole} :
    (A.product B).states.get? name = some role ↔ ∃ pair ∈ A.commonPairs B,
      A.productName B pair = name ∧
        ⟨decide (pair = (A.entry, B.entry)), A.isExit pair.1 && B.isExit pair.2⟩ = role := by
  have distinct : (((namePairs [] (A.commonPairs B)).map fun e => (e.2,
      (⟨decide (e.1 = (A.entry, B.entry)), A.isExit e.1.1 && B.isExit e.1.2⟩ : StateRole))).map
      Prod.fst).Nodup := by
    simpa [Function.comp_def] using nodup_names_namePairs [] (A.commonPairs B)
  simp only [product, OrderedTable.get?_eq_some_iff, OrderedTable.entries_ofList distinct,
    List.mem_map, Prod.mk.injEq]
  constructor
  · rintro ⟨⟨pair, _⟩, named, rfl, rfl⟩
    obtain ⟨mem, same⟩ := mem_namePairs_iff.mp named
    exact ⟨pair, mem, same, rfl⟩
  · rintro ⟨pair, mem, rfl, rfl⟩
    exact ⟨_, mem_namePairs_iff.mpr ⟨mem, rfl⟩, rfl, rfl⟩

private theorem mem_stateNames_product {name : StateName} : name ∈ (A.product B).stateNames ↔
    ∃ pair ∈ A.commonPairs B, A.productName B pair = name := by
  rw [stateNames, mem_keys_product]
  simp only [mem_namePairs_iff]

private theorem isExit_product {pair : StateName × StateName} (mem : pair ∈ A.commonPairs B) :
    (A.product B).isExit (A.productName B pair) = (A.isExit pair.1 && B.isExit pair.2) := by
  have found := get?_product.mpr ⟨pair, mem, rfl, rfl⟩
  rw [isExit, found]
  rfl

private theorem entry_mem_commonPairs (left : A.WellFormed) (right : B.WellFormed) :
    (A.entry, B.entry) ∈ A.commonPairs B := (mem_commonPairs_iff left.linked right.linked).mpr .refl

theorem Linked.wellFormed_product (left : A.Linked) (right : B.Linked) :
    (A.product B).WellFormed where
  entry_role := ⟨_, get?_product.mpr ⟨_, (mem_commonPairs_iff left right).mpr .refl, rfl, rfl⟩,
    decide_eq_true rfl⟩
  entry_unique name role found isEntry := by
    obtain ⟨pair, _, rfl, rfl⟩ := get?_product.mp found
    rw [of_decide_eq_true isEntry]
    rfl
  source_mem := (linked_product left right).source_mem
  target_mem := (linked_product left right).target_mem
  label_mem := (linked_product left right).label_mem

private theorem wellFormed_product (left : A.WellFormed) (right : B.WellFormed) :
    (A.product B).WellFormed :=
  left.linked.wellFormed_product right.linked

private theorem mem_transitions_product_iff {t : Transition} : t ∈ (A.product B).transitions ↔
    ∃ pair ∈ A.commonPairs B, ∃ label next,
    (A.Moves pair.1 label next.1 ∧ B.Moves pair.2 label next.2) ∧
      .plain (A.productName B pair) label (A.productName B next) = t := by
  rw [mem_transitions_product]
  constructor
  · rintro ⟨pair, name, named, label, next, moves, rfl⟩
    obtain ⟨mem, rfl⟩ := mem_namePairs_iff.mp named
    exact ⟨pair, mem, label, next, moves, rfl⟩
  · rintro ⟨pair, mem, label, next, moves, rfl⟩
    exact ⟨pair, _, mem_namePairs_iff.mpr ⟨mem, rfl⟩, label, next, moves, rfl⟩

private theorem moves_product {pair : StateName × StateName} (mem : pair ∈ A.commonPairs B)
    {label : Symbol} {target : StateName} :
    (A.product B).Moves (A.productName B pair) label target ↔
      ∃ next, A.Moves pair.1 label next.1 ∧ B.Moves pair.2 label next.2 ∧
        A.productName B next = target := by
  constructor
  · rintro ⟨t, edge, source, rfl, rfl⟩
    obtain ⟨other, met, label, next, ⟨first, second⟩, rfl⟩ := mem_transitions_product_iff.mp edge
    obtain rfl := productName_inj met mem source
    exact ⟨next, first, second, rfl⟩
  · rintro ⟨next, first, second, rfl⟩
    have edge := mem_transitions_product_iff.mpr ⟨pair, mem, label, next, ⟨first, second⟩, rfl⟩
    exact ⟨_, edge, rfl, rfl, rfl⟩

theorem deterministic_product (det : A.Deterministic) (det' : B.Deterministic) :
    (A.product B).Deterministic := by
  rw [deterministic_iff]
  refine ⟨fun t mem => ?_, fun t ht u hu source same => ?_⟩
  · obtain ⟨_, _, label, _, ⟨first, _⟩, rfl⟩ := mem_transitions_product_iff.mp mem
    exact det.visible first
  · obtain ⟨pair, met, label, next, ⟨first, second⟩, rfl⟩ := mem_transitions_product_iff.mp ht
    obtain ⟨pair', met', label', next', ⟨first', second'⟩, rfl⟩ := mem_transitions_product_iff.mp hu
    obtain rfl := productName_inj met met' source
    obtain rfl : label = label' := same
    rw [Prod.ext (det.moves_unique first first') (det'.moves_unique second second')]

end States

section Paths

/-- Some word leads both automata from their entries to the states of the pair. -/
def ReachedTogether (A B : Automaton) (pair : StateName × StateName) : Prop :=
  ∃ word, A.Path A.entry word pair.1 ∧ B.Path B.entry word pair.2

private theorem exists_common_path_iff (det : A.Deterministic) (det' : B.Deterministic)
    {pair last : StateName × StateName} :
    (∃ word, A.Path pair.1 word last.1 ∧ B.Path pair.2 word last.2) ↔
      Relation.ReflTransGen (A.CommonEdge B) pair last := by
  constructor
  · rintro ⟨word, first, second⟩
    induction word generalizing pair with
    | nil =>
      have same : pair = last := Prod.ext (det.path_nil.mp first) (det'.path_nil.mp second)
      exact same ▸ .refl
    | cons label word ih =>
      obtain ⟨left, move, first⟩ := det.path_cons.mp first
      obtain ⟨right, move', second⟩ := det'.path_cons.mp second
      have rest : Relation.ReflTransGen (A.CommonEdge B) (left, right) last := ih first second
      exact .head ⟨label, move, move'⟩ rest
  · intro way
    induction way using Relation.ReflTransGen.head_induction_on with
    | refl => exact ⟨[], .stay _, .stay _⟩
    | head edge _ ih =>
      obtain ⟨label, move, move'⟩ := edge
      obtain ⟨word, first, second⟩ := ih
      exact ⟨label :: word, .read (det.visible move) move first,
        .read (det'.visible move') move' second⟩

private theorem mem_commonPairs_iff_reachedTogether (left : A.WellFormed) (right : B.WellFormed)
    (det : A.Deterministic) (det' : B.Deterministic) {pair : StateName × StateName} :
    pair ∈ A.commonPairs B ↔ A.ReachedTogether B pair := by
  let start : StateName × StateName := (A.entry, B.entry)
  have ways : (∃ word, A.Path start.1 word pair.1 ∧ B.Path start.2 word pair.2) ↔
      Relation.ReflTransGen (A.CommonEdge B) start pair := exists_common_path_iff det det'
  exact (mem_commonPairs_iff left.linked right.linked).trans ways.symm

theorem path_product (left : A.WellFormed) (right : B.WellFormed) (det : A.Deterministic)
    (det' : B.Deterministic) {pair : StateName × StateName} (mem : pair ∈ A.commonPairs B)
    {word : Word} {name : StateName} : (A.product B).Path (A.productName B pair) word name ↔
      ∃ last, A.Path pair.1 word last.1 ∧ B.Path pair.2 word last.2 ∧
      A.productName B last = name := by
  have det_product := deterministic_product (A := A) (B := B) det det'
  induction word generalizing pair with
  | nil =>
    rw [det_product.path_nil]
    constructor
    · rintro rfl
      exact ⟨pair, .stay _, .stay _, rfl⟩
    · rintro ⟨last, first, second, rfl⟩
      rw [Prod.ext (det.path_nil.mp first) (det'.path_nil.mp second)]
  | cons label word ih =>
    have step {next : StateName × StateName} (move : A.Moves pair.1 label next.1)
        (move' : B.Moves pair.2 label next.2) : next ∈ A.commonPairs B := by
      rw [mem_commonPairs_iff left.linked right.linked] at mem ⊢
      exact mem.tail ⟨label, move, move'⟩
    rw [det_product.path_cons]
    constructor
    · rintro ⟨middle, move, rest⟩
      obtain ⟨next, first, second, rfl⟩ := (moves_product mem).mp move
      obtain ⟨last, way, way', same⟩ := (ih (step first second)).mp rest
      exact ⟨last, det.path_cons.mpr ⟨_, first, way⟩, det'.path_cons.mpr ⟨_, second, way'⟩, same⟩
    · rintro ⟨last, way, way', same⟩
      obtain ⟨first, move, way⟩ := det.path_cons.mp way
      obtain ⟨second, move', way'⟩ := det'.path_cons.mp way'
      have met : (first, second) ∈ A.commonPairs B := step move move'
      exact ⟨A.productName B (first, second), (moves_product mem).mpr ⟨_, move, move', rfl⟩,
        (ih met).mpr ⟨last, way, way', same⟩⟩

theorem accepts_product (left : A.WellFormed) (right : B.WellFormed) (det : A.Deterministic)
    (det' : B.Deterministic) {word : Word} :
    (A.product B).accepts word = true ↔ A.accepts word = true ∧ B.accepts word = true := by
  have entry := entry_mem_commonPairs left right
  have shared {last : StateName × StateName} (way : A.Path A.entry word last.1)
      (way' : B.Path B.entry word last.2) : last ∈ A.commonPairs B :=
    (mem_commonPairs_iff_reachedTogether left right det det').mpr ⟨word, way, way'⟩
  rw [(deterministic_product det det').accepts_iff, det.accepts_iff,
    det'.accepts_iff]
  constructor
  · rintro ⟨name, way, isExit⟩
    obtain ⟨last, first, second, rfl⟩ := (path_product left right det det' entry).mp way
    rw [isExit_product (shared first second), Bool.and_eq_true] at isExit
    exact ⟨⟨last.1, first, isExit.1⟩, last.2, second, isExit.2⟩
  · rintro ⟨⟨first, way, isExit⟩, second, way', isExit'⟩
    have met : (first, second) ∈ A.commonPairs B := shared way way'
    refine ⟨A.productName B (first, second),
      (path_product left right det det' entry).mpr ⟨_, way, way', rfl⟩, ?_⟩
    rw [isExit_product met, isExit, isExit', Bool.and_self]

private theorem productName_bijOn (left : A.WellFormed) (right : B.WellFormed)
    (det : A.Deterministic) (det' : B.Deterministic) :
    Set.BijOn (A.productName B) {pair | A.ReachedTogether B pair}
      {name | name ∈ (A.product B).stateNames} := by
  have met (pair : StateName × StateName) : A.ReachedTogether B pair ↔ pair ∈ A.commonPairs B :=
    (mem_commonPairs_iff_reachedTogether left right det det').symm
  refine ⟨fun pair reached => ?_, fun p hp q hq same => ?_, fun name mem => ?_⟩
  · exact mem_stateNames_product.mpr ⟨pair, (met pair).mp reached, rfl⟩
  · exact productName_inj ((met p).mp hp) ((met q).mp hq) same
  · obtain ⟨pair, member, same⟩ := mem_stateNames_product.mp mem
    exact ⟨pair, (met pair).mpr member, same⟩

/-- Two deterministic automata have an intersection, whatever the names of their states are. It is
deterministic, its states are the pairs of states that a common word reaches, and it accepts exactly
the words that both automata accept. -/
theorem intersect_exact {states states' : List State} {alphabet alphabet' : Alphabet}
    {transitions transitions' : List Transition}
    (built : ofParts states alphabet transitions = .ok A)
    (built' : ofParts states' alphabet' transitions' = .ok B) (det : A.Deterministic)
    (det' : B.Deterministic) : ∃ C, A.intersect B = .ok C ∧ C.WellFormed ∧ C.Deterministic ∧
      (∃ nameOf : StateName × StateName → StateName,
        Set.BijOn nameOf {pair | A.ReachedTogether B pair} {name | name ∈ C.stateNames} ∧
        ∀ word name, C.Path C.entry word name ↔
          ∃ pair, A.Path A.entry word pair.1 ∧ B.Path B.entry word pair.2 ∧ nameOf pair = name) ∧
      ∀ word, C.accepts word = true ↔ A.accepts word = true ∧ B.accepts word = true := by
  have left := wellFormed_of_ofParts built
  have right := wellFormed_of_ofParts built'
  exact ⟨A.product B, intersect_eq_ok_iff.mpr ⟨det, det', rfl⟩, wellFormed_product left right,
    deterministic_product det det',
    ⟨A.productName B, productName_bijOn left right det det',
      fun _ _ => path_product left right det det' (entry_mem_commonPairs left right)⟩,
    fun _ => accepts_product left right det det'⟩

/-- The pairs of `x` with `y;z` and of `x;y` with `z` would both be named `x;y;z`. -/
theorem intersect_exact_semicolons :
    let built := ofParts [⟨"x", ⟨true, false⟩⟩, ⟨"x;y", ⟨false, true⟩⟩]
      (OrderedSet.ofList ["a", "b"])
      [.plain "x" "a" "x;y", .plain "x" "b" "x"]
    let built' := ofParts [⟨"y;z", ⟨true, false⟩⟩, ⟨"z", ⟨false, true⟩⟩]
      (OrderedSet.ofList ["a", "b"])
      [.plain "y;z" "a" "z", .plain "y;z" "b" "y;z"]
    ∃ A B, built = .ok A ∧ built' = .ok B ∧ A.Deterministic ∧ B.Deterministic ∧
      ∃ C, A.intersect B = .ok C ∧ C.stateNames = ["x;y;z", "x;y;z;0"] ∧
        C.accepts ["b", "a"] = true ∧ C.accepts ["b"] = false := by
  intro built built'
  have accepted : built = .ok _ := rfl
  have accepted' : built' = .ok _ := rfl
  refine ⟨_, _, accepted, accepted', by decide, by decide, ?_⟩
  obtain ⟨C, result, _, _, _, words⟩ := intersect_exact accepted accepted' (by decide) (by decide)
  refine ⟨C, result, ?_, (words _).mpr (by decide), ?_⟩
  · obtain rfl := Except.ok.inj result
    decide +kernel
  · rw [Bool.eq_false_iff, ne_eq, words]
    decide

end Paths

end LanguageTheory.Automaton

import Mathlib.Combinatorics.Enumerative.DoubleCounting
import Mathlib.Data.List.Pairwise
import LanguageTheory.Automaton.Minimization
import LanguageTheory.Proofs.Automaton.Deterministic

/-!
Splitting classes of states. Every round splits a partition of the states into a finer one, or
changes nothing; since there are no more classes than states, the classes become stable. Members of
a stable class accept the same words (`alike_of_sameClass`), and states that a bisimulation relates
are never split (`Bisimulation.sameClass`). If every state accepts some word, accepting the same
words is one (`sameClass_of_alike`).
-/

set_option autoImplicit false
set_option relaxedAutoImplicit false

namespace LanguageTheory.Automaton

variable {A : Automaton} {classes : List (SortedSet StateName)}

/-- The classes are non-empty, have no member in common and together hold exactly the states. -/
structure Partition (A : Automaton) (classes : List (SortedSet StateName)) : Prop where
  inhabited : ∀ c ∈ classes, ∃ name, name ∈ c
  inside : ∀ c ∈ classes, ∀ name ∈ c, name ∈ A.states.keys
  cover : ∀ name ∈ A.states.keys, ∃ c ∈ classes, name ∈ c
  disjoint : classes.Pairwise fun c d => ∀ name ∈ c, name ∉ d

def SameClass (classes : List (SortedSet StateName)) (p q : StateName) : Prop :=
  ∃ c ∈ classes, p ∈ c ∧ q ∈ c

theorem Partition.eq_of_mem (partition : A.Partition classes) {c d : SortedSet StateName}
    {name : StateName} (hc : c ∈ classes) (hd : d ∈ classes) (mem_c : name ∈ c)
    (mem_d : name ∈ d) : c = d := by
  by_contra different
  have symmetric : Std.Symm fun c d : SortedSet StateName => ∀ name ∈ c, name ∉ d :=
    ⟨fun _ _ apart name mem other => apart name other mem⟩
  exact partition.disjoint.forall hc hd different name mem_c mem_d

theorem Partition.nodup (partition : A.Partition classes) : classes.Nodup := by
  refine partition.disjoint.imp_of_mem ?_
  rintro c d hc _ apart rfl
  obtain ⟨name, mem⟩ := partition.inhabited c hc
  exact apart name mem mem

theorem length_le_of_represented {k : List StateName}
    (stands : SortedSet StateName → StateName → Prop) (distinct : classes.Nodup)
    (represented : ∀ c ∈ classes, ∃ name ∈ k, stands c name)
    (single : ∀ c ∈ classes, ∀ d ∈ classes, ∀ name, stands c name → stands d name → c = d) :
    classes.length ≤ k.length := by
  have count : classes.toFinset.card ≤ k.toFinset.card := by
    apply Finset.card_le_card_of_forall_subsingleton stands
    · simpa using represented
    · rintro name _ c ⟨hc, stands_c⟩ d ⟨hd, stands_d⟩
      exact single c (List.mem_toFinset.mp hc) d (List.mem_toFinset.mp hd) name stands_c stands_d
  rw [List.toFinset_card_of_nodup distinct] at count
  exact count.trans k.toFinset_card_le

private theorem Partition.length_le (partition : A.Partition classes) :
    classes.length ≤ A.states.size := by
  have count : classes.length ≤ A.states.keys.length := by
    apply length_le_of_represented (fun c name => name ∈ c) partition.nodup
    · intro c hc
      obtain ⟨name, mem⟩ := partition.inhabited c hc
      exact ⟨name, partition.inside c hc name mem, mem⟩
    · exact fun c hc d hd name => partition.eq_of_mem hc hd
  rwa [OrderedTable.keys, List.length_map] at count

private theorem Partition.classIndex?_isSome (partition : A.Partition classes) {name : StateName}
    (mem : name ∈ A.states.keys) : ∃ i, classIndex? classes name = some i := by
  obtain ⟨c, hc, member⟩ := partition.cover name mem
  have found : (classIndex? classes name).isSome = true := by
    rw [classIndex?, List.findIdx?_isSome, List.any_eq_true]
    exact ⟨c, hc, decide_eq_true member⟩
  exact Option.isSome_iff_exists.mp found

private theorem findIdx?_agree {α : Type} {l : List α} {p q : α → Bool}
    (agree : ∀ a ∈ l, p a = q a) :
    l.findIdx? p = l.findIdx? q := by
  induction l with
  | nil => rfl
  | cons a l ih =>
    rw [List.findIdx?_cons, List.findIdx?_cons, agree a List.mem_cons_self,
      ih fun b mem => agree b (List.mem_cons_of_mem a mem)]

private theorem Partition.classIndex?_eq_iff (partition : A.Partition classes) {p q : StateName}
    (hp : p ∈ A.states.keys) :
    classIndex? classes p = classIndex? classes q ↔ SameClass classes p q := by
  constructor
  · intro same
    obtain ⟨i, found⟩ := partition.classIndex?_isSome hp
    have found' : classIndex? classes q = some i := same ▸ found
    obtain ⟨bound, here, _⟩ := List.findIdx?_eq_some_iff_getElem.mp found
    obtain ⟨_, here', _⟩ := List.findIdx?_eq_some_iff_getElem.mp found'
    exact ⟨classes[i], List.getElem_mem bound, of_decide_eq_true here, of_decide_eq_true here'⟩
  · rintro ⟨c, hc, mem_p, mem_q⟩
    apply findIdx?_agree
    intro d hd
    rw [decide_eq_decide]
    constructor
    · intro mem
      exact partition.eq_of_mem hc hd mem_p mem ▸ mem_q
    · intro mem
      exact partition.eq_of_mem hc hd mem_q mem ▸ mem_p

section Split

private theorem mem_splitClass {states part : SortedSet StateName} :
    part ∈ A.splitClass classes states ↔ ∃ name ∈ states, part = states.filter fun other =>
      decide (A.signature classes other = A.signature classes name) := by
  simp only [splitClass, List.mem_map, OrderedSet.mem_toList, OrderedSet.mem_ofList,
    SortedSet.mem_toList]
  constructor
  · rintro ⟨_, ⟨name, mem, rfl⟩, rfl⟩
    exact ⟨name, mem, rfl⟩
  · rintro ⟨name, mem, rfl⟩
    exact ⟨_, ⟨name, mem, rfl⟩, rfl⟩

private theorem mem_of_mem_part {states part : SortedSet StateName} {name : StateName}
    (split : part ∈ A.splitClass classes states) (mem : name ∈ part) : name ∈ states := by
  obtain ⟨_, _, rfl⟩ := mem_splitClass.mp split
  exact (SortedSet.mem_filter.mp mem).1

private theorem exists_part {states : SortedSet StateName} {name : StateName}
    (mem : name ∈ states) :
    ∃ part ∈ A.splitClass classes states, name ∈ part :=
  ⟨_, mem_splitClass.mpr ⟨name, mem, rfl⟩, SortedSet.mem_filter.mpr ⟨mem, decide_eq_true rfl⟩⟩

private theorem parts_disjoint (states : SortedSet StateName) :
    (A.splitClass classes states).Pairwise fun c d => ∀ name ∈ c, name ∉ d := by
  refine List.pairwise_map.mpr ((OrderedSet.nodup _).imp ?_)
  intro first second different name mem other
  have left := of_decide_eq_true (SortedSet.mem_filter.mp mem).2
  have right := of_decide_eq_true (SortedSet.mem_filter.mp other).2
  exact different (left.symm.trans right)

private theorem Partition.splitClasses (partition : A.Partition classes) :
    A.Partition (A.splitClasses classes) where
  inhabited part mem := by
    obtain ⟨c, _, split⟩ := List.mem_flatMap.mp mem
    obtain ⟨name, member, rfl⟩ := mem_splitClass.mp split
    exact ⟨name, SortedSet.mem_filter.mpr ⟨member, decide_eq_true rfl⟩⟩
  inside part mem name member := by
    obtain ⟨c, hc, split⟩ := List.mem_flatMap.mp mem
    exact partition.inside c hc name (mem_of_mem_part split member)
  cover name mem := by
    obtain ⟨c, hc, member⟩ := partition.cover name mem
    obtain ⟨part, split, inside⟩ := exists_part member
    exact ⟨part, List.mem_flatMap.mpr ⟨c, hc, split⟩, inside⟩
  disjoint := by
    refine List.pairwise_flatMap.mpr ⟨fun c _ => parts_disjoint c, partition.disjoint.imp ?_⟩
    intro c d apart first hfirst second hsecond name mem other
    exact apart name (mem_of_mem_part hfirst mem) (mem_of_mem_part hsecond other)

private theorem sameClass_splitClasses {p q : StateName} : SameClass (A.splitClasses classes) p q ↔
    ∃ c ∈ classes, p ∈ c ∧ q ∈ c ∧ A.signature classes p = A.signature classes q := by
  constructor
  · rintro ⟨part, mem, hp, hq⟩
    obtain ⟨c, hc, split⟩ := List.mem_flatMap.mp mem
    obtain ⟨name, _, rfl⟩ := mem_splitClass.mp split
    obtain ⟨inside_p, agree_p⟩ := SortedSet.mem_filter.mp hp
    obtain ⟨inside_q, agree_q⟩ := SortedSet.mem_filter.mp hq
    exact ⟨c, hc, inside_p, inside_q,
      (of_decide_eq_true agree_p).trans (of_decide_eq_true agree_q).symm⟩
  · rintro ⟨c, hc, hp, hq, same⟩
    refine ⟨_, List.mem_flatMap.mpr ⟨c, hc, mem_splitClass.mpr ⟨p, hp, rfl⟩⟩, ?_, ?_⟩
    · exact SortedSet.mem_filter.mpr ⟨hp, decide_eq_true rfl⟩
    · exact SortedSet.mem_filter.mpr ⟨hq, decide_eq_true same.symm⟩

private theorem length_lt_flatMap {α : Type} {f : α → List α} {l : List α}
    (kept : ∀ a ∈ l, f a ≠ []) (alone : ∀ a ∈ l, (f a).length = 1 → f a = [a])
    (changed : l.flatMap f ≠ l) :
    l.length < (l.flatMap f).length := by
  induction l with
  | nil => exact absurd rfl changed
  | cons a l ih =>
    have first := List.length_pos_of_ne_nil (kept a List.mem_cons_self)
    have rest := ih (fun b mem => kept b (List.mem_cons_of_mem a mem))
      (fun b mem => alone b (List.mem_cons_of_mem a mem))
    rw [List.flatMap_cons] at changed ⊢
    rw [List.length_append, List.length_cons]
    by_cases single : (f a).length = 1
    · rw [alone a List.mem_cons_self single] at changed ⊢
      have later := rest fun same => changed (by rw [same, List.singleton_append])
      rw [List.length_singleton]
      omega
    · by_cases same : l.flatMap f = l
      · rw [same]
        omega
      · have later := rest same
        omega

private theorem Partition.length_lt_splitClasses (partition : A.Partition classes)
    (changed : A.splitClasses classes ≠ classes) :
    classes.length < (A.splitClasses classes).length := by
  refine length_lt_flatMap ?_ ?_ changed
  · intro c hc
    obtain ⟨name, mem⟩ := partition.inhabited c hc
    obtain ⟨part, split, _⟩ := exists_part mem
    exact List.ne_nil_of_mem split
  · intro c _ single
    obtain ⟨part, only⟩ := List.length_eq_one_iff.mp single
    have split : part ∈ A.splitClass classes c := only ▸ List.mem_singleton_self part
    have whole : part = c := by
      apply SortedSet.ext
      intro name
      constructor
      · exact mem_of_mem_part split
      · intro mem
        obtain ⟨other, hother, inside⟩ := exists_part mem
        rw [only, List.mem_singleton] at hother
        exact hother ▸ inside
    rw [only, whole]

end Split

section Stable

private theorem mem_acceptanceClasses {states : SortedSet StateName} :
    states ∈ A.acceptanceClasses ↔ (∃ name, name ∈ states) ∧
      ∃ accepting, states = SortedSet.ofList (A.stateNames.filter fun name =>
        A.isExit name == accepting) := by
  simp only [acceptanceClasses, List.mem_filter, List.mem_cons, List.not_mem_nil, or_false,
    Bool.not_eq_true', SortedSet.isEmpty_eq_false_iff, Bool.exists_bool, beq_false,
    beq_true]
  exact and_comm.trans (and_congr_right fun _ => or_comm)

private theorem partition_acceptanceClasses (A : Automaton) : A.Partition A.acceptanceClasses where
  inhabited c hc := (mem_acceptanceClasses.mp hc).1
  inside c hc name mem := by
    obtain ⟨_, accepting, rfl⟩ := mem_acceptanceClasses.mp hc
    exact (List.mem_filter.mp (SortedSet.mem_ofList.mp mem)).1
  cover name mem := by
    have member : name ∈ SortedSet.ofList (A.stateNames.filter fun other =>
        A.isExit other == A.isExit name) :=
      SortedSet.mem_ofList.mpr (List.mem_filter.mpr ⟨mem, beq_self_eq_true _⟩)
    exact ⟨_, mem_acceptanceClasses.mpr ⟨⟨name, member⟩, _, rfl⟩, member⟩
  disjoint := by
    refine List.Pairwise.filter _ (List.pairwise_pair.mpr ?_)
    intro name exit other
    have accepting := (List.mem_filter.mp (SortedSet.mem_ofList.mp exit)).2
    have rejecting := (List.mem_filter.mp (SortedSet.mem_ofList.mp other)).2
    rw [accepting] at rejecting
    cases rejecting

private theorem sameClass_acceptanceClasses {p q : StateName} (hp : p ∈ A.states.keys)
    (hq : q ∈ A.states.keys) : SameClass A.acceptanceClasses p q ↔ A.isExit p = A.isExit q := by
  have member {name : StateName} (mem : name ∈ A.states.keys) {accepting : Bool} :
      name ∈ SortedSet.ofList (A.stateNames.filter fun other => A.isExit other == accepting) ↔
        A.isExit name = accepting := by
    rw [SortedSet.mem_ofList, List.mem_filter, beq_iff_eq]
    exact and_iff_right mem
  constructor
  · rintro ⟨c, hc, mem_p, mem_q⟩
    obtain ⟨_, accepting, rfl⟩ := mem_acceptanceClasses.mp hc
    exact ((member hp).mp mem_p).trans ((member hq).mp mem_q).symm
  · intro same
    have mem_p := (member hp).mpr rfl
    exact ⟨_, mem_acceptanceClasses.mpr ⟨⟨p, mem_p⟩, _, rfl⟩, mem_p, (member hq).mpr same.symm⟩

def Refined (A : Automaton) (classes : List (SortedSet StateName)) : Prop :=
  A.Partition classes ∧ ∀ p q, SameClass classes p q → A.isExit p = A.isExit q

private theorem Refined.splitClasses (refined : A.Refined classes) :
    A.Refined (A.splitClasses classes) := by
  refine ⟨refined.1.splitClasses, fun p q same => ?_⟩
  obtain ⟨c, hc, hp, hq, _⟩ := sameClass_splitClasses.mp same
  exact refined.2 p q ⟨c, hc, hp, hq⟩

private theorem refined_acceptanceClasses (A : Automaton) : A.Refined A.acceptanceClasses := by
  have partition := partition_acceptanceClasses A
  refine ⟨partition, fun p q same => ?_⟩
  obtain ⟨c, hc, hp, hq⟩ := same
  exact (sameClass_acceptanceClasses (partition.inside c hc p hp) (partition.inside c hc q hq)).mp
    ⟨c, hc, hp, hq⟩

theorem refined_stableClasses (A : Automaton) : A.Refined A.stableClasses :=
  stabilize_induction (fun _ => Refined.splitClasses) _ (refined_acceptanceClasses A)

private theorem splitClasses_stableClasses (A : Automaton) :
    A.splitClasses A.stableClasses = A.stableClasses := by
  refine stabilize_stable (P := A.Partition) List.length A.states.size
    (fun _ => Partition.splitClasses) (fun _ => Partition.length_le)
    (fun _ => Partition.length_lt_splitClasses) (partition_acceptanceClasses A) ?_
  omega

private theorem signature_eq_iff {p q : StateName} : A.signature classes p = A.signature classes q ↔
    ∀ symbol ∈ A.alphabet.visible, (A.targets p symbol).least?.bind (classIndex? classes) =
      (A.targets q symbol).least?.bind (classIndex? classes) := List.map_inj_left

private theorem Deterministic.least?_targets (det : A.Deterministic) {source target : StateName}
    {symbol : Symbol} :
    (A.targets source symbol).least? = some target ↔ A.Moves source symbol target := by
  constructor
  · intro least
    exact mem_targets_iff_moves.mp (SortedSet.least?_mem least)
  · intro move
    obtain ⟨least, found⟩ := SortedSet.exists_least? (mem_targets_iff_moves.mpr move)
    rw [found, det.moves_unique (mem_targets_iff_moves.mp (SortedSet.least?_mem found)) move]

end Stable

section Alike

def Alike (A : Automaton) (p q : StateName) : Prop :=
  ∀ word, A.AcceptsFrom p word ↔ A.AcceptsFrom q word

theorem exists_move_of_sameClass (fits : A.WellFormed) (det : A.Deterministic)
    {p q next : StateName} {symbol : Symbol} (same : SameClass A.stableClasses p q)
    (move : A.Moves p symbol next) :
    ∃ other, A.Moves q symbol other ∧ SameClass A.stableClasses next other := by
  have partition := (refined_stableClasses A).1
  rw [← splitClasses_stableClasses A, sameClass_splitClasses] at same
  obtain ⟨_, _, _, _, agree⟩ := same
  have visible := det.visible move
  have known : symbol ∈ A.alphabet.visible :=
    OrderedSet.mem_filter.mpr ⟨fits.moves_label visible move, decide_eq_true visible⟩
  have next_mem := (fits.moves_mem move).2
  obtain ⟨i, place⟩ := partition.classIndex?_isSome next_mem
  have equal := signature_eq_iff.mp agree symbol known
  rw [det.least?_targets.mpr move, Option.bind_some, place] at equal
  obtain ⟨other, found, place'⟩ := Option.bind_eq_some_iff.mp equal.symm
  exact ⟨other, det.least?_targets.mp found,
    (partition.classIndex?_eq_iff next_mem).mp (place.trans place'.symm)⟩

private theorem acceptsFrom_of_sameClass (fits : A.WellFormed) (det : A.Deterministic)
    {p q : StateName} {word : Word} (same : SameClass A.stableClasses p q)
    (accepted : A.AcceptsFrom p word) :
    A.AcceptsFrom q word := by
  induction word generalizing p q with
  | nil =>
    rw [det.acceptsFrom_nil] at accepted ⊢
    rw [← (refined_stableClasses A).2 p q same, accepted]
  | cons symbol word ih =>
    obtain ⟨next, move, rest⟩ := det.acceptsFrom_cons.mp accepted
    obtain ⟨other, move', same'⟩ := exists_move_of_sameClass fits det same move
    exact det.acceptsFrom_cons.mpr ⟨other, move', ih same' rest⟩

theorem alike_of_sameClass (fits : A.WellFormed) (det : A.Deterministic) {p q : StateName}
    (same : SameClass A.stableClasses p q) : A.Alike p q := by
  obtain ⟨c, hc, hp, hq⟩ := same
  intro word
  exact ⟨acceptsFrom_of_sameClass fits det ⟨c, hc, hp, hq⟩,
    acceptsFrom_of_sameClass fits det ⟨c, hc, hq, hp⟩⟩

theorem Alike.exists_move (det : A.Deterministic) {p q next : StateName} {symbol : Symbol}
    (alike : A.Alike p q) (live : ∃ word, A.AcceptsFrom next word) (move : A.Moves p symbol next) :
    ∃ other, A.Moves q symbol other ∧ A.Alike next other :=
  have same : A.Matches A p q := alike
  same.exists_move det det move live

/-- A relation between states that agree on acceptance, in which every move of one state is answered
by a move of the other one to a related state. -/
structure Bisimulation (A : Automaton) (related : StateName → StateName → Prop) : Prop where
  symm : ∀ p q, related p q → related q p
  exit : ∀ p q, related p q → A.isExit p = A.isExit q
  move : ∀ p q label next, related p q → A.Moves p label next →
    ∃ other, A.Moves q label other ∧ related next other

def KeepsTogether (A : Automaton) (related : StateName → StateName → Prop)
    (classes : List (SortedSet StateName)) : Prop :=
  A.Partition classes ∧
    ∀ p q, p ∈ A.states.keys → q ∈ A.states.keys → related p q → SameClass classes p q

variable {related : StateName → StateName → Prop}

private theorem KeepsTogether.signature_eq (keeps : A.KeepsTogether related classes)
    (bisimulation : A.Bisimulation related) (fits : A.WellFormed) (det : A.Deterministic)
    {p q : StateName} (linked : related p q) : A.signature classes p = A.signature classes q := by
  have place {p q next : StateName} {symbol : Symbol} (linked : related p q)
      (move : A.Moves p symbol next) : ∃ other, A.Moves q symbol other ∧
        classIndex? classes next = classIndex? classes other := by
    have next_mem := (fits.moves_mem move).2
    obtain ⟨other, move', linked'⟩ := bisimulation.move p q symbol next linked move
    exact ⟨other, move', (keeps.1.classIndex?_eq_iff next_mem).mpr
      (keeps.2 next other next_mem (fits.moves_mem move').2 linked')⟩
  rw [signature_eq_iff]
  intro symbol _
  cases found : (A.targets p symbol).least? with
  | some next =>
    obtain ⟨other, move, same⟩ := place linked (det.least?_targets.mp found)
    rw [det.least?_targets.mpr move, Option.bind_some, Option.bind_some, same]
  | none =>
    cases found' : (A.targets q symbol).least? with
    | none => rfl
    | some next =>
      obtain ⟨other, move, _⟩ := place (bisimulation.symm p q linked) (det.least?_targets.mp found')
      rw [det.least?_targets.mpr move] at found
      cases found

theorem Bisimulation.sameClass (bisimulation : A.Bisimulation related) (fits : A.WellFormed)
    (det : A.Deterministic) {p q : StateName} (hp : p ∈ A.states.keys) (hq : q ∈ A.states.keys)
    (linked : related p q) : SameClass A.stableClasses p q := by
  have keeps : A.KeepsTogether related A.stableClasses := by
    refine stabilize_induction (P := A.KeepsTogether related) ?_ _
      ⟨partition_acceptanceClasses A, ?_⟩
    · intro classes keeps
      refine ⟨keeps.1.splitClasses, fun p q hp hq linked => ?_⟩
      obtain ⟨c, hc, mem_p, mem_q⟩ := keeps.2 p q hp hq linked
      exact sameClass_splitClasses.mpr
        ⟨c, hc, mem_p, mem_q, keeps.signature_eq bisimulation fits det linked⟩
    · intro p q hp hq linked
      exact (sameClass_acceptanceClasses hp hq).mpr (bisimulation.exit p q linked)
  exact keeps.2 p q hp hq linked

theorem Alike.isExit_eq (det : A.Deterministic) {p q : StateName} (alike : A.Alike p q) :
    A.isExit p = A.isExit q := by
  rw [Bool.eq_iff_iff, ← det.acceptsFrom_nil, ← det.acceptsFrom_nil]
  exact alike []

private theorem bisimulation_alike (fits : A.WellFormed) (det : A.Deterministic)
    (live : ∀ name ∈ A.states.keys, ∃ word, A.AcceptsFrom name word) : A.Bisimulation A.Alike where
  symm _ _ alike := fun word => (alike word).symm
  exit _ _ alike := alike.isExit_eq det
  move _ _ _ next alike move := alike.exists_move det (live next (fits.moves_mem move).2) move

theorem sameClass_of_alike (fits : A.WellFormed) (det : A.Deterministic)
    (live : ∀ name ∈ A.states.keys, ∃ word, A.AcceptsFrom name word) {p q : StateName}
    (hp : p ∈ A.states.keys) (hq : q ∈ A.states.keys) (alike : A.Alike p q) :
    SameClass A.stableClasses p q :=
  (bisimulation_alike fits det live).sameClass fits det hp hq alike

end Alike

end LanguageTheory.Automaton

import LanguageTheory.Proofs.Grammar.LeftCorner
import LanguageTheory.Proofs.Grammar.RecursionSteps

/-!
The order behind the removal of left recursion: first the symbols made on the way, the last one
first, then the heads as they are treated. A body of a treated head begins with a symbol that comes
later than the head, and what a body of a made symbol can begin with comes later than that symbol
(`Straight`). Both steps keep this, and when all heads are treated no left corner leads back.
-/

set_option autoImplicit false
set_option relaxedAutoImplicit false

namespace LanguageTheory.Grammar

variable {G : Grammar}

section Precedes

variable {list : List Symbol} {symbol other : Symbol}

/-- The symbol is in the list, and the other one comes later or not at all. -/
def Precedes (list : List Symbol) (symbol other : Symbol) : Prop :=
  list.idxOf symbol < list.idxOf other

private theorem Precedes.mem (precedes : Precedes list symbol other) : symbol ∈ list :=
  List.idxOf_lt_length_iff.mp (lt_of_lt_of_le precedes List.idxOf_le_length)

private theorem Precedes.append (precedes : Precedes list symbol other) (more : List Symbol) :
    Precedes (list ++ more) symbol other := by
  unfold Precedes
  rw [List.idxOf_append_of_mem precedes.mem]
  by_cases mem : other ∈ list
  · rwa [List.idxOf_append_of_mem mem]
  · rw [List.idxOf_append_of_notMem mem]
    have inside := List.idxOf_lt_length_iff.mpr precedes.mem
    omega

private theorem Precedes.prepend {front : List Symbol} (precedes : Precedes list symbol other)
    (outside : symbol ∉ front) (outside' : other ∉ front) :
    Precedes (front ++ list) symbol other := by
  unfold Precedes at *
  rw [List.idxOf_append_of_notMem outside, List.idxOf_append_of_notMem outside']
  omega

private theorem precedes_head (distinct : other ≠ symbol) :
    Precedes (symbol :: list) symbol other := by
  unfold Precedes
  rw [List.idxOf_cons_self, List.idxOf_cons_ne list distinct.symm]
  omega

private theorem precedes_last (outside : symbol ∉ list) (outside' : other ∉ list)
    (distinct : other ≠ symbol) :
    Precedes (list ++ [symbol]) symbol other :=
  (precedes_head distinct).prepend outside outside'

private theorem Precedes.not_mem {done todo : List Symbol}
    (precedes : Precedes (done ++ symbol :: todo) symbol other) (outside : symbol ∉ done) :
    other ∉ done ++ [symbol] := by
  unfold Precedes at precedes
  rw [List.idxOf_append_of_notMem outside, List.idxOf_cons_self] at precedes
  rw [List.mem_append, List.mem_singleton, not_or]
  constructor
  · intro mem
    rw [List.idxOf_append_of_mem mem] at precedes
    have inside := List.idxOf_lt_length_iff.mpr mem
    omega
  · rintro rfl
    rw [List.idxOf_append_of_notMem outside, List.idxOf_cons_self] at precedes
    omega

end Precedes

/-- No body is empty, and no symbol derives itself in one or more steps. -/
structure Proper (G : Grammar) : Prop where
  filled : ∀ p ∈ G.rules.productions, p.body ≠ []
  acyclic : ∀ symbol, ¬ G.DerivesProperly [symbol] [symbol]

section Weight

/-- The length of a word, in which terminals count twice. -/
def weight (G : Grammar) (word : Word) : Nat :=
  word.length + word.countP fun symbol => decide (symbol ∈ G.terminals)

private theorem weight_append (u v : Word) : G.weight (u ++ v) = G.weight u + G.weight v := by
  simp only [weight, List.length_append, List.countP_append]
  omega

theorem proper_of_weight (grows : ∀ p ∈ G.rules.productions, G.weight p.head < G.weight p.body) :
    G.Proper where
  filled p mem empty := by
    have more := grows p mem
    rw [empty] at more
    exact Nat.not_lt_zero _ more
  acyclic symbol cycle := by
    have step_grows {u v : Word} (step : G.Step u v) : G.weight u < G.weight v := by
      obtain ⟨p, mem, before, after, rfl, rfl⟩ := step
      have more := grows p mem
      simp only [weight_append]
      omega
    have all_grow {u v : Word} (derivation : G.DerivesProperly u v) : G.weight u < G.weight v := by
      induction derivation with
      | single step => exact step_grows step
      | tail _ step ih => exact ih.trans (step_grows step)
    exact lt_irrefl _ (all_grow cycle)

end Weight

section Straight

variable {made earlier : List Symbol} {table : RuleTable}

def withoutMade (made : List Symbol) (word : Word) : Word :=
  word.filter fun symbol => decide (symbol ∉ made)

private theorem withoutMade_append (u v : Word) :
    withoutMade made (u ++ v) = withoutMade made u ++ withoutMade made v := List.filter_append ..

private theorem withoutMade_cons_of_not_mem {symbol : Symbol} (outside : symbol ∉ made)
    (word : Word) :
    withoutMade made (symbol :: word) = symbol :: withoutMade made word :=
  List.filter_cons_of_pos (decide_eq_true outside)

private theorem withoutMade_self {word : Word} (outside : ∀ symbol ∈ word, symbol ∉ made) :
    withoutMade made word = word :=
  List.filter_eq_self.mpr fun symbol mem => decide_eq_true (outside symbol mem)

private theorem withoutMade_cons_made {fresh : Symbol} {word : Word} (unused : fresh ∉ word) :
    withoutMade (fresh :: made) word = withoutMade made word := by
  refine List.filter_congr fun symbol mem => ?_
  have distinct : symbol ≠ fresh := by
    rintro rfl
    exact unused mem
  simp [distinct]

/-- In a table on the way, with the symbols made so far and the heads treated so far: the other
symbols derive their bodies, begin them with each other and go forward once treated; made symbols go
forward or to another symbol. -/
structure Straight (G : Grammar) (made earlier : List Symbol) (table : RuleTable) : Prop where
  declared : ∀ head, head ∉ made → ∀ body ∈ table.bodies head, ∃ first rest, body = first :: rest ∧
    first ∉ made ∧ G.DerivesProperly [head] (withoutMade made body)
  ordered : ∀ head ∈ earlier, ∀ first rest, first :: rest ∈ table.bodies head →
    Precedes earlier head first
  introduced : ∀ symbol ∈ made, ∀ body ∈ table.bodies symbol, body = [] ∨
    ∃ front next back, body = front ++ next :: back ∧
      (∀ other ∈ front, other ∈ made ∧ Precedes made symbol other) ∧ next ∉ made

theorem straight_start (free : G.ContextFree) (proper : G.Proper) : G.Straight [] [] G.table where
  declared head _ body mem := by
    have production := mem_bodies_table_iff.mp mem
    have filled := proper.filled _ (mem_table_iff.mp production)
    obtain ⟨first, rest, rfl⟩ := List.exists_cons_of_ne_nil filled
    refine ⟨first, rest, rfl, List.not_mem_nil, ?_⟩
    rw [withoutMade_self fun _ _ => List.not_mem_nil]
    exact .single ((step_single_iff free).mpr production)
  ordered head mem := absurd mem List.not_mem_nil
  introduced symbol mem := absurd mem List.not_mem_nil

private theorem DerivesProperly.append_right {u v : Word} (derivation : G.DerivesProperly u v)
    (after : Word) :
    G.DerivesProperly (u ++ after) (v ++ after) := by
  induction derivation with
  | single step => exact .single (step.append_right after)
  | tail _ step ih => exact .tail ih (step.append_right after)

variable {next later : Symbol}

private theorem Straight.substitute (straight : G.Straight made earlier table)
    (key : next ∈ table.keys) (outside : later ∉ earlier) (next_old : next ∉ made)
    (later_old : later ∉ made) :
    G.Straight made earlier (substituteLeading later table next) := by
  have unchanged {symbol : Symbol} (other : symbol ≠ later) (body : Word) :
      body ∈ (substituteLeading later table next).bodies symbol ↔ body ∈ table.bodies symbol := by
    rw [mem_bodies_substituteLeading key, if_neg other]
  exact {
    declared := fun head old body mem => by
      by_cases here : head = later
      · subst here
        rw [mem_bodies_substituteLeading key, if_pos rfl] at mem
        obtain ⟨mem, _⟩ | ⟨front, front_mem, tail, mem, rfl⟩ := mem
        · exact straight.declared head old body mem
        · obtain ⟨first, rest, rfl, first_old, inner⟩ :=
            straight.declared next next_old front front_mem
          obtain ⟨_, _, _, _, outer⟩ := straight.declared head old _ mem
          refine ⟨first, rest ++ tail, rfl, first_old, ?_⟩
          rw [withoutMade_cons_of_not_mem next_old] at outer
          rw [withoutMade_append]
          exact outer.trans (inner.append_right (withoutMade made tail))
      · exact straight.declared head old body ((unchanged here body).mp mem)
    ordered := fun head treated first rest mem => by
      have other : head ≠ later := by
        rintro rfl
        exact outside treated
      exact straight.ordered head treated first rest ((unchanged other _).mp mem)
    introduced := fun symbol mem body stored => by
      have other : symbol ≠ later := by
        rintro rfl
        exact later_old mem
      exact straight.introduced symbol mem body ((unchanged other body).mp stored) }

private theorem Straight.first_not_mem {done todo : List Symbol}
    (straight : G.Straight made (done ++ next :: todo) table) (key : next ∈ table.keys)
    (next_old : next ∉ made) (new : next ∉ done)
    (firsts : ∀ first rest, first :: rest ∈ table.bodies later → first ∉ done) :
    ∀ first rest, first :: rest ∈ (substituteLeading later table next).bodies later →
      first ∉ done ++ [next] := by
  intro first rest mem
  rw [mem_bodies_substituteLeading key, if_pos rfl] at mem
  obtain ⟨mem, leading⟩ | ⟨front, front_mem, tail, mem, same⟩ := mem
  · rw [List.mem_append, List.mem_singleton, not_or]
    refine ⟨firsts first rest mem, ?_⟩
    rintro rfl
    exact leading rfl
  · obtain ⟨start, back, rfl, _, _⟩ := straight.declared next next_old front front_mem
    obtain ⟨rfl, _⟩ := List.cons.inj same
    exact (straight.ordered next (by simp) first back front_mem).not_mem new

theorem Straight.substituteMany {done todo : List Symbol}
    (straight : G.Straight made (done ++ todo) table) (keys : ∀ next ∈ todo, next ∈ table.keys)
    (old : ∀ next ∈ todo, next ∉ made) (distinct : (done ++ todo).Nodup)
    (outside : later ∉ done ++ todo) (later_old : later ∉ made)
    (firsts : ∀ first rest, first :: rest ∈ table.bodies later → first ∉ done) :
    G.Straight made (done ++ todo) (todo.foldl (substituteLeading later) table) ∧
      ∀ first rest, first :: rest ∈ RuleTable.bodies
        (todo.foldl (substituteLeading later) table) later →
        first ∉ done ++ todo := by
  induction todo generalizing done table with
  | nil =>
    rw [List.append_nil] at *
    exact ⟨straight, firsts⟩
  | cons next todo ih =>
    obtain ⟨key, keys⟩ := List.forall_mem_cons.mp keys
    obtain ⟨next_old, old⟩ := List.forall_mem_cons.mp old
    have new : next ∉ done := fun mem => (List.nodup_append.mp distinct).2.2 next mem next
      List.mem_cons_self rfl
    have shape : done ++ next :: todo = (done ++ [next]) ++ todo := by simp
    have firsts' := straight.first_not_mem key next_old new firsts
    have straight' := straight.substitute key outside next_old later_old
    rw [shape] at straight' distinct outside ⊢
    refine ih straight' (fun other mem => ?_) old distinct outside firsts'
    rw [keys_substituteLeading]
    exact keys other mem

theorem Straight.extend (straight : G.Straight made earlier table) (outside : later ∉ earlier)
    (firsts : ∀ first rest, first :: rest ∈ table.bodies later → first ∉ earlier)
    (direct : ∀ body ∈ table.bodies later, body.head? ≠ some later) :
    G.Straight made (earlier ++ [later]) table where
  declared := straight.declared
  ordered head mem first rest stored := by
    rcases List.mem_append.mp mem with treated | here
    · exact (straight.ordered head treated first rest stored).append [later]
    · obtain rfl := List.mem_singleton.mp here
      refine precedes_last outside (firsts first rest stored) ?_
      rintro rfl
      exact direct _ stored rfl
  introduced := straight.introduced

private theorem exists_split_of_withoutMade_ne {word : Word} (left : withoutMade made word ≠ []) :
    ∃ front next back, word = front ++ next :: back ∧ (∀ other ∈ front, other ∈ made) ∧
      next ∉ made := by
  induction word with
  | nil => exact absurd rfl left
  | cons symbol word ih =>
    by_cases known : symbol ∈ made
    · have later : withoutMade made word ≠ [] := by
        simpa [withoutMade, known] using left
      obtain ⟨front, next, back, rfl, inside, outside⟩ := ih later
      exact ⟨symbol :: front, next, back, rfl, List.forall_mem_cons.mpr ⟨known, inside⟩, outside⟩
    · exact ⟨[], symbol, word, rfl, fun _ mem => absurd mem List.not_mem_nil, known⟩

/-- What stays of a recursive body without the head does not vanish, since that would be a cycle. -/
private theorem Straight.exists_split_tail (straight : G.Straight made earlier table)
    (proper : G.Proper) (later_old : later ∉ made) {tail : Word}
    (mem : later :: tail ∈ table.bodies later) :
    ∃ front next back, tail = front ++ next :: back ∧ (∀ other ∈ front, other ∈ made) ∧
      next ∉ made := by
  apply exists_split_of_withoutMade_ne
  intro empty
  obtain ⟨_, _, _, _, derivation⟩ := straight.declared later later_old _ mem
  rw [withoutMade_cons_of_not_mem later_old, empty] at derivation
  exact proper.acyclic later derivation

section Move

variable {fresh : Symbol} {table' : RuleTable}

private theorem not_mem_made_of_body (unused : ∀ symbol, ∀ body ∈ table.bodies symbol, fresh ∉ body)
    {symbol other : Symbol} {body : Word} (stored : body ∈ table.bodies symbol) (mem : other ∈ body)
    (old : other ∉ made) : other ∉ fresh :: made := by
  rw [List.mem_cons, not_or]
  refine ⟨?_, old⟩
  rintro rfl
  exact unused symbol body stored mem

private theorem Straight.declared_move (straight : G.Straight made earlier table)
    (moved : Moved later fresh table table')
    (unused : ∀ symbol, ∀ body ∈ table.bodies symbol, fresh ∉ body) {head : Symbol}
    (old : head ∉ fresh :: made) {body : Word} (mem : body ∈ table'.bodies head) :
    ∃ first rest, body = first :: rest ∧ first ∉ fresh :: made ∧
      G.DerivesProperly [head] (withoutMade (fresh :: made) body) := by
  rw [List.mem_cons, not_or] at old
  rcases moved.cases_of_body mem with ⟨here, _⟩ | ⟨rfl, _, other, stored, _, rfl⟩ | ⟨_, _, stored⟩
  · exact absurd here old.1
  · obtain ⟨first, rest, rfl, first_old, derivation⟩ := straight.declared head old.2 other stored
    refine ⟨first, rest ++ [fresh], rfl,
      not_mem_made_of_body unused stored List.mem_cons_self first_old, ?_⟩
    rw [withoutMade_append, withoutMade_cons_made (unused head _ stored)]
    simpa [withoutMade] using derivation
  · obtain ⟨first, rest, rfl, first_old, derivation⟩ := straight.declared head old.2 body stored
    refine ⟨first, rest, rfl, not_mem_made_of_body unused stored List.mem_cons_self first_old, ?_⟩
    rwa [withoutMade_cons_made (unused head _ stored)]

private theorem Straight.ordered_move (straight : G.Straight made earlier table)
    (moved : Moved later fresh table table') (outside : later ∉ earlier) (later_old : later ∉ made)
    (firsts : ∀ first rest, first :: rest ∈ table.bodies later → first ∉ earlier)
    (new : fresh ∉ earlier) {head first : Symbol} {rest : Word} (mem : head ∈ earlier ++ [later])
    (stored : first :: rest ∈ table'.bodies head) : Precedes (earlier ++ [later]) head first := by
  rcases List.mem_append.mp mem with treated | here
  · have other : head ≠ later := by
      rintro rfl
      exact outside treated
    have distinct : head ≠ fresh := by
      rintro rfl
      exact new treated
    have before := (moved.other_bodies head other distinct _).mp stored
    exact (straight.ordered head treated first rest before).append [later]
  · obtain rfl := List.mem_singleton.mp here
    obtain ⟨other, before, different, same⟩ := (moved.head_bodies _).mp stored
    obtain ⟨start, back, rfl, _, _⟩ := straight.declared head later_old other before
    obtain ⟨rfl, _⟩ := List.cons.inj same
    refine precedes_last outside (firsts first back before) ?_
    rintro rfl
    exact different rfl

private theorem Straight.introduced_move (straight : G.Straight made earlier table)
    (proper : G.Proper) (moved : Moved later fresh table table') (later_old : later ∉ made)
    (new : fresh ∉ made) (unused : ∀ symbol, ∀ body ∈ table.bodies symbol, fresh ∉ body)
    {symbol : Symbol} (mem : symbol ∈ fresh :: made) {body : Word}
    (stored : body ∈ table'.bodies symbol) :
    body = [] ∨ ∃ front next back, body = front ++ next :: back ∧
      (∀ other ∈ front, other ∈ fresh :: made ∧ Precedes (fresh :: made) symbol other) ∧
        next ∉ fresh :: made := by
  have apart {symbol : Symbol} (inside : symbol ∈ made) : symbol ≠ fresh := by
    rintro rfl
    exact new inside
  rcases List.mem_cons.mp mem with rfl | known
  · rcases (moved.fresh_bodies body).mp stored with rfl | ⟨tail, _, before, rfl⟩
    · exact Or.inl rfl
    · obtain ⟨front, next, back, rfl, inside, next_old⟩ :=
        straight.exists_split_tail proper later_old before
      refine Or.inr ⟨front, next, back ++ [symbol], by simp, fun other member => ?_, ?_⟩
      · exact ⟨List.mem_cons_of_mem symbol (inside other member),
          precedes_head (apart (inside other member))⟩
      · exact not_mem_made_of_body unused before (by simp) next_old
  · have other : symbol ≠ later := by
      rintro rfl
      exact later_old known
    have before := (moved.other_bodies symbol other (apart known) body).mp stored
    rcases straight.introduced symbol known body before with
      rfl | ⟨front, next, back, rfl, inside, next_old⟩
    · exact Or.inl rfl
    · refine Or.inr ⟨front, next, back, rfl, fun other member => ?_,
        not_mem_made_of_body unused before (by simp) next_old⟩
      obtain ⟨known', precedes⟩ := inside other member
      refine ⟨List.mem_cons_of_mem fresh known', ?_⟩
      change Precedes ([fresh] ++ made) symbol other
      exact precedes.prepend (by simpa using apart known) (by simpa using apart known')

theorem Straight.move (straight : G.Straight made earlier table) (proper : G.Proper)
    (moved : Moved later fresh table table') (outside : later ∉ earlier) (later_old : later ∉ made)
    (firsts : ∀ first rest, first :: rest ∈ table.bodies later → first ∉ earlier)
    (new : fresh ∉ made ∧ fresh ∉ earlier)
    (unused : ∀ symbol, ∀ body ∈ table.bodies symbol, fresh ∉ body) :
    G.Straight (fresh :: made) (earlier ++ [later]) table' where
  declared _ old _ := straight.declared_move moved unused old
  ordered _ mem _ _ := straight.ordered_move moved outside later_old firsts new.2 mem
  introduced _ mem _ := straight.introduced_move proper moved later_old new.1 unused mem

end Move

private theorem Straight.mem_of_vanishes (straight : G.Straight made earlier table)
    {symbol : Symbol} (vanish : (G.withTable table).Vanishes symbol) : symbol ∈ made := by
  obtain ⟨height, within⟩ := vanish
  induction height generalizing symbol with
  | zero => exact absurd within id
  | succ height ih =>
    by_contra old
    obtain ⟨body, mem, lower⟩ := within
    obtain ⟨first, rest, rfl, first_old, _⟩ :=
      straight.declared symbol old body (mem_table_withTable.mp mem)
    exact first_old (ih (lower first List.mem_cons_self))

private theorem Straight.precedes_of_leftCorner (straight : G.Straight made earlier table)
    (heads : ∀ head, ∀ body ∈ table.bodies head, head ∈ made ∨ head ∈ earlier)
    {head corner : Symbol} (edge : (G.withTable table).LeftCorner head corner) :
    Precedes (made ++ earlier) head corner := by
  obtain ⟨before, after, mem, all⟩ := edge
  rw [mem_table_withTable] at mem
  by_cases known : head ∈ made
  · rcases straight.introduced head known _ mem with none |
      ⟨front, next, back, same, inside, next_old⟩
    · simp at none
    · rcases split_trichotomy same with ⟨_, rfl, _⟩ | ⟨middle, rfl, _⟩ | ⟨middle, rfl, _⟩
      · have first : Precedes made head corner := by
          unfold Precedes
          rw [List.idxOf_of_notMem next_old]
          exact List.idxOf_lt_length_iff.mpr known
        exact first.append earlier
      · exact (inside corner (by simp)).2.append earlier
      · exact absurd (straight.mem_of_vanishes (all next (by simp))) next_old
  · obtain ⟨first, rest, same, first_old, _⟩ := straight.declared head known _ mem
    cases before with
    -- The first symbol of the body does not vanish, so the corner is the first symbol.
    | nil =>
      obtain ⟨rfl, rfl⟩ := List.cons.inj same
      have treated := (heads head _ mem).resolve_left known
      exact (straight.ordered head treated corner after mem).prepend known first_old
    | cons symbol before =>
      obtain ⟨rfl, _⟩ := List.cons.inj same
      exact absurd (straight.mem_of_vanishes (all symbol List.mem_cons_self)) first_old

theorem Straight.not_leftRecursive (straight : G.Straight made earlier table)
    (heads : ∀ head, ∀ body ∈ table.bodies head, head ∈ made ∨ head ∈ earlier) (symbol : Symbol) :
    ¬ (G.withTable table).LeftRecursive symbol := by
  intro recursive
  have forward {a b : Symbol} (way : Relation.TransGen (G.withTable table).LeftCorner a b) :
      Precedes (made ++ earlier) a b := by
    induction way with
    | single edge => exact straight.precedes_of_leftCorner heads edge
    | tail _ edge ih => exact lt_trans ih (straight.precedes_of_leftCorner heads edge)
  exact lt_irrefl _ (forward (recursive.cycle (contextFree_withTable G table)))

end Straight

end LanguageTheory.Grammar

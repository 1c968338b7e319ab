import LanguageTheory.Grammar.LeftRecursion
import LanguageTheory.Proofs.Grammar.Interpretation
import LanguageTheory.Proofs.Grammar.RuleTable

/-!
The two steps by which left recursion is removed. Putting the bodies of one head in place of a
leading symbol, and moving the direct recursion of a head into a new symbol, change the bodies of
the head, but not the words of terminals that are derived.
-/

set_option autoImplicit false
set_option relaxedAutoImplicit false

namespace LanguageTheory.Grammar

variable {G : Grammar} {table : RuleTable}

theorem Derives.of_body {head : Symbol} {body : Word} (mem : body ∈ table.bodies head) :
    (G.withTable table).Derives [head] body :=
  .single ((step_single_iff (contextFree_withTable G table)).mpr (mem_table_withTable.mpr mem))

section Substitution

variable {earlier later : Symbol}

theorem keys_substituteLeading (table : RuleTable) (earlier later : Symbol) :
    (substituteLeading later table earlier).keys = table.keys := by
  unfold substituteLeading
  split
  · rename_i found
    exact OrderedTable.keys_insert_of_mem (OrderedTable.mem_keys_of_get? found)
  · rfl

theorem mem_bodies_substituteLeading (known : earlier ∈ table.keys) {head : Symbol} {body : Word} :
    body ∈ (substituteLeading later table earlier).bodies head ↔
      if head = later then
        (body ∈ table.bodies later ∧ body.head? ≠ some earlier) ∨
          ∃ front ∈ table.bodies earlier, ∃ tail, earlier :: tail ∈ table.bodies later ∧
            body = front ++ tail
      else body ∈ table.bodies head := by
  obtain ⟨fronts, stored⟩ := OrderedTable.mem_keys_iff.mp known
  have fronts_eq : table.bodies earlier = fronts.toList := by rw [RuleTable.bodies, stored]; rfl
  cases found : table.get? later with
  | none =>
    have none_later : table.bodies later = [] := by rw [RuleTable.bodies, found]; rfl
    have same : substituteLeading later table earlier = table := by
      rw [substituteLeading, stored, found]
    rw [same]
    split
    · rename_i here
      simp [here, none_later]
    · rfl
  | some bodies =>
    have bodies_eq : table.bodies later = bodies.toList := by rw [RuleTable.bodies, found]; rfl
    rw [substituteLeading, stored, found, RuleTable.mem_bodies_insert, bodies_eq, fronts_eq]
    by_cases here : head = later
    · rw [if_pos here, if_pos here, OrderedSet.mem_ofList, List.mem_flatMap]
      constructor
      · rintro ⟨old, mem, made⟩
        split at made
        · rename_i leading
          obtain ⟨front, front_mem, rfl⟩ := List.mem_map.mp made
          refine Or.inr ⟨front, front_mem, old.tail, ?_, rfl⟩
          rwa [← List.cons_head?_tail leading] at mem
        · rename_i other
          obtain rfl := List.mem_singleton.mp made
          exact Or.inl ⟨mem, other⟩
      · rintro (⟨mem, other⟩ | ⟨front, front_mem, tail, mem, rfl⟩)
        · refine ⟨body, mem, ?_⟩
          rw [if_neg other]
          exact List.mem_singleton_self body
        · refine ⟨earlier :: tail, mem, ?_⟩
          rw [if_pos List.head?_cons]
          exact List.mem_map_of_mem front_mem
    · rw [if_neg here, if_neg here]

theorem derives_substituteLeading_iff (known : earlier ∈ table.keys) (distinct : earlier ≠ later)
    {u word : Word} (final : earlier ∉ word) :
    (G.withTable (substituteLeading later table earlier)).Derives u word ↔
      (G.withTable table).Derives u word := by
  have same_bodies (body : Word) : body ∈ (substituteLeading later table earlier).bodies earlier ↔
      body ∈ table.bodies earlier := by
    rw [mem_bodies_substituteLeading known, if_neg distinct]
  constructor
  · refine Derives.of_productions (contextFree_withTable G _) ?_
    intro head body mem
    rw [mem_table_withTable, mem_bodies_substituteLeading known] at mem
    by_cases here : head = later
    · rw [if_pos here] at mem
      obtain ⟨mem, _⟩ | ⟨front, front_mem, tail, mem, rfl⟩ := mem
      · exact here ▸ .of_body mem
      · have leading : (G.withTable table).Derives [later] ([earlier] ++ tail) := .of_body mem
        exact here ▸ leading.trans ((Derives.of_body front_mem).append_right tail)
    · rw [if_neg here] at mem
      exact .of_body mem
  · refine Derives.of_starts (fun symbol begun =>
      begun ∈ (substituteLeading later table earlier).bodies symbol ∨
        symbol ≠ earlier ∧ begun = [symbol]) (contextFree_withTable G _) ?_ ?_ ?_
    · rintro symbol begun (mem | ⟨_, rfl⟩)
      · exact .of_body mem
      · exact .refl
    · intro head body mem
      rw [mem_table_withTable] at mem
      by_cases leading : head = later ∧ body.head? = some earlier
      · obtain ⟨rfl, leading⟩ := leading
        rw [← List.cons_head?_tail leading] at mem ⊢
        -- The leading symbol does not stay, so it becomes one of the bodies that were put in its
        -- place.
        refine Or.inr ⟨earlier, body.tail, rfl, ?_⟩
        rintro begun (start | ⟨other, _⟩)
        · refine Or.inl ((mem_bodies_substituteLeading known).mpr ?_)
          rw [if_pos rfl]
          exact Or.inr ⟨begun, (same_bodies begun).mp start, body.tail, mem, rfl⟩
        · exact absurd rfl other
      · refine Or.inl (Or.inl ((mem_bodies_substituteLeading known).mpr ?_))
        by_cases here : head = later
        · rw [if_pos here]
          exact Or.inl ⟨here ▸ mem, fun first => leading ⟨here, first⟩⟩
        · rwa [if_neg here]
    · rintro symbol mem
      refine Or.inr ⟨?_, rfl⟩
      rintro rfl
      exact final mem

end Substitution

section DirectRecursion

variable {head fresh : Symbol} {table' : RuleTable}

/-- The second table has the direct recursion of the head moved into the fresh symbol. -/
structure Moved (head fresh : Symbol) (table table' : RuleTable) : Prop where
  keys : ∀ symbol, symbol ∈ table'.keys ↔ symbol ∈ table.keys ∨ symbol = head ∨ symbol = fresh
  head_bodies : ∀ body, body ∈ table'.bodies head ↔
    ∃ other ∈ table.bodies head, other.head? ≠ some head ∧ body = other ++ [fresh]
  fresh_bodies : ∀ body, body ∈ table'.bodies fresh ↔
    body = [] ∨ ∃ tail, tail ≠ [] ∧ head :: tail ∈ table.bodies head ∧ body = tail ++ [fresh]
  other_bodies : ∀ symbol, symbol ≠ head → symbol ≠ fresh →
    ∀ body, body ∈ table'.bodies symbol ↔ body ∈ table.bodies symbol

theorem removeDirectRecursion_cases (state : RuleTable × SymbolPool) (head : Symbol)
    (new : state.2.fresh.1 ≠ head) :
    ((∀ body ∈ state.1.bodies head, body.head? ≠ some head) ∧
        removeDirectRecursion state head = state) ∨
      (removeDirectRecursion state head).2 = state.2.fresh.2 ∧
        Moved head state.2.fresh.1 state.1 (removeDirectRecursion state head).1 := by
  obtain ⟨table, pool⟩ := state
  simp only [removeDirectRecursion]
  split
  · rename_i none
    refine Or.inl ⟨fun body mem leading => ?_, rfl⟩
    rw [List.isEmpty_iff, List.filter_eq_nil_iff] at none
    exact none body mem (decide_eq_true leading)
  · refine Or.inr ⟨rfl, ?_, ?_, ?_, ?_⟩
    · intro symbol
      rw [OrderedTable.mem_keys_insert, OrderedTable.mem_keys_insert, or_assoc]
    · intro body
      rw [RuleTable.mem_bodies_insert, if_neg new.symm, RuleTable.mem_bodies_insert, if_pos rfl,
        OrderedSet.mem_ofList, List.mem_map]
      constructor
      · rintro ⟨other, mem, rfl⟩
        obtain ⟨mem, different⟩ := List.mem_filter.mp mem
        exact ⟨other, mem, of_decide_eq_true different, rfl⟩
      · rintro ⟨other, mem, different, rfl⟩
        exact ⟨other, List.mem_filter.mpr ⟨mem, decide_eq_true different⟩, rfl⟩
    · intro body
      rw [RuleTable.mem_bodies_insert, if_pos rfl, OrderedSet.mem_ofList, List.mem_append,
        List.mem_singleton, or_comm, List.mem_map]
      refine or_congr_right ⟨?_, ?_⟩
      · rintro ⟨tail, mem, rfl⟩
        obtain ⟨mem, filled⟩ := List.mem_filter.mp mem
        obtain ⟨whole, recursive, rfl⟩ := List.mem_map.mp mem
        obtain ⟨stored, leading⟩ := List.mem_filter.mp recursive
        refine ⟨whole.tail, by simpa using filled, ?_, rfl⟩
        rwa [← List.cons_head?_tail (of_decide_eq_true leading)] at stored
      · rintro ⟨tail, filled, mem, rfl⟩
        have recursive : head :: tail ∈ (table.bodies head).filter fun body =>
            decide (body.head? = some head) := List.mem_filter.mpr ⟨mem, decide_eq_true rfl⟩
        refine ⟨tail, List.mem_filter.mpr ⟨List.mem_map_of_mem recursive, ?_⟩, rfl⟩
        simpa using filled
    · intro symbol other_head other_fresh body
      rw [RuleTable.mem_bodies_insert, if_neg other_fresh, RuleTable.mem_bodies_insert,
        if_neg other_head]

inductive Tails (table : RuleTable) (head : Symbol) : Word → Prop
  | nil : Tails table head []
  | cons {tail rest : Word} (mem : head :: tail ∈ table.bodies head)
      (later : Tails table head rest) :
      Tails table head (tail ++ rest)

private theorem Tails.snoc {tail word : Word} (tails : Tails table head word)
    (mem : head :: tail ∈ table.bodies head) : Tails table head (word ++ tail) := by
  induction tails with
  | nil =>
    have single := Tails.cons mem .nil
    rwa [List.append_nil] at single
  | cons first _ ih =>
    rw [List.append_assoc]
    exact .cons first ih

private theorem Tails.derives_head {word : Word} (tails : Tails table head word) :
    (G.withTable table).Derives [head] (head :: word) := by
  induction tails with
  | nil => exact .refl
  | @cons _ rest mem _ ih => exact ih.trans ((Derives.of_body mem).append_right rest)

/-- What a symbol first becomes when recursion is unrolled: the head becomes a body that is not
recursive and tails of recursive ones. -/
def Unrolled (table : RuleTable) (head symbol : Symbol) (begun : Word) : Prop :=
  (symbol = head ∧ ∃ other ∈ table.bodies head, other.head? ≠ some head ∧
    ∃ tails, Tails table head tails ∧ begun = other ++ tails) ∨
  (symbol ≠ head ∧ (begun ∈ table.bodies symbol ∨ begun = [symbol]))

/-- What a symbol of the second table stands for under the first one: tails of recursive bodies are
what the fresh symbol stands for. -/
def StandsFor (G : Grammar) (table : RuleTable) (head fresh symbol : Symbol) (word : Word) : Prop :=
  (symbol = fresh ∧ ∃ tails, Tails table head tails ∧ (G.withTable table).Derives tails word) ∨
  (symbol ≠ fresh ∧ (G.withTable table).Derives [symbol] word)

private theorem derives_of_spelled {u word : Word} (outside : fresh ∉ u)
    (spelled : Spelled (StandsFor G table head fresh) u word) :
    (G.withTable table).Derives u word := by
  refine spelled.derives ?_
  rintro symbol mem v (⟨rfl, _⟩ | ⟨_, derivation⟩)
  · exact absurd mem outside
  · exact derivation

namespace Moved

variable (moved : Moved head fresh table table')
include moved

theorem cases_of_body {symbol : Symbol} {body : Word} (mem : body ∈ table'.bodies symbol) :
    (symbol = fresh ∧ (body = [] ∨
        ∃ tail, tail ≠ [] ∧ head :: tail ∈ table.bodies head ∧ body = tail ++ [fresh])) ∨
      (symbol = head ∧ symbol ≠ fresh ∧
        ∃ other ∈ table.bodies head, other.head? ≠ some head ∧ body = other ++ [fresh]) ∨
      (symbol ≠ head ∧ symbol ≠ fresh ∧ body ∈ table.bodies symbol) := by
  by_cases here : symbol = fresh
  · subst here
    exact Or.inl ⟨rfl, (moved.fresh_bodies body).mp mem⟩
  · by_cases there : symbol = head
    · subst there
      exact Or.inr (Or.inl ⟨rfl, here, (moved.head_bodies body).mp mem⟩)
    · exact Or.inr (Or.inr ⟨there, here, (moved.other_bodies symbol there here body).mp mem⟩)

theorem mem_of_body {symbol other : Symbol} {body : Word} (mem : body ∈ table'.bodies symbol)
    (member : other ∈ body) :
    other = fresh ∨ ∃ source, ∃ old ∈ table.bodies source, other ∈ old := by
  have last {word : Word} (inside : other ∈ word ++ [fresh]) : other = fresh ∨ other ∈ word := by
    rwa [List.mem_append, List.mem_singleton, or_comm] at inside
  rcases moved.cases_of_body mem with
    ⟨_, rfl | ⟨tail, _, old, rfl⟩⟩ | ⟨_, _, front, old, _, rfl⟩ | ⟨_, _, old⟩
  · exact absurd member List.not_mem_nil
  · exact (last member).imp_right fun inside => ⟨head, _, old, List.mem_cons_of_mem head inside⟩
  · exact (last member).imp_right fun inside => ⟨head, front, old, inside⟩
  · exact Or.inr ⟨symbol, body, old, member⟩

private theorem derives_fresh {word : Word} (tails : Tails table head word) :
    (G.withTable table').Derives [fresh] (word ++ [fresh]) := by
  induction tails with
  | nil => exact .refl
  | @cons tail rest mem _ ih =>
    by_cases filled : tail = []
    · rwa [filled]
    · have first : (G.withTable table').Derives [fresh] (tail ++ [fresh]) :=
        .of_body ((moved.fresh_bodies _).mpr (Or.inr ⟨tail, filled, mem, rfl⟩))
      rw [List.append_assoc]
      exact first.trans (ih.append_left tail)

private theorem derives_tails {word : Word} (tails : Tails table head word) :
    (G.withTable table').Derives [fresh] word := by
  have gone : (G.withTable table').Derives [fresh] [] :=
    .of_body ((moved.fresh_bodies _).mpr (Or.inl rfl))
  have last := (moved.derives_fresh (G := G) tails).trans (gone.append_left word)
  rwa [List.append_nil] at last

theorem derives_of_old (unused : ∀ symbol, ∀ body ∈ table.bodies symbol, symbol ≠ fresh)
    {u word : Word} (final : head ∉ word) (derivation : (G.withTable table).Derives u word) :
    (G.withTable table').Derives u word := by
  refine Derives.of_starts (Unrolled table head) (contextFree_withTable G table) ?_ ?_ ?_ derivation
  · rintro symbol begun (⟨rfl, other, mem, different, tails, isTails, rfl⟩ | ⟨apart, mem | rfl⟩)
    · have first : (G.withTable table').Derives [symbol] (other ++ [fresh]) :=
        .of_body ((moved.head_bodies _).mpr ⟨other, mem, different, rfl⟩)
      exact first.trans ((moved.derives_tails isTails).append_left other)
    · exact .of_body ((moved.other_bodies symbol apart (unused symbol begun mem) begun).mpr mem)
    · exact .refl
  · intro symbol body mem
    rw [mem_table_withTable] at mem
    by_cases here : symbol = head
    · subst here
      by_cases leading : body.head? = some symbol
      · rw [← List.cons_head?_tail leading] at mem ⊢
        -- A recursive body only puts its tail behind what the head becomes.
        refine Or.inr ⟨symbol, body.tail, rfl, ?_⟩
        rintro begun (⟨_, other, other_mem, different, tails, isTails, rfl⟩ | ⟨apart, _⟩)
        · exact Or.inl ⟨rfl, other, other_mem, different, tails ++ body.tail, isTails.snoc mem,
            List.append_assoc ..⟩
        · exact absurd rfl apart
      · exact Or.inl (Or.inl ⟨rfl, body, mem, leading, [], .nil, (List.append_nil body).symm⟩)
    · exact Or.inl (Or.inr ⟨here, Or.inl mem⟩)
  · intro symbol mem
    refine Or.inr ⟨?_, Or.inr rfl⟩
    rintro rfl
    exact final mem

private theorem standsFor_of_body (unused : ∀ symbol, ∀ body ∈ table.bodies symbol, fresh ∉ body)
    {symbol : Symbol} {body word : Word} (mem : body ∈ table'.bodies symbol)
    (spelled : Spelled (StandsFor G table head fresh) body word) :
    StandsFor G table head fresh symbol word := by
  -- The fresh symbol ends every body that holds it, and stands for tails there.
  have split {front : Word}
      (spelled : Spelled (StandsFor G table head fresh) (front ++ [fresh]) word)
      (outside : fresh ∉ front) : ∃ first second tails, word = first ++ second ∧
        (G.withTable table).Derives front first ∧ Tails table head tails ∧
          (G.withTable table).Derives tails second := by
    obtain ⟨first, second, rfl, left, right⟩ := spelled_append.mp spelled
    obtain ⟨_, tails, isTails, derivation⟩ | ⟨other, _⟩ := spelled_singleton.mp right
    · exact ⟨first, second, tails, rfl, derives_of_spelled outside left, isTails, derivation⟩
    · exact absurd rfl other
  rcases moved.cases_of_body mem with
    ⟨here, rfl | ⟨tail, _, old, rfl⟩⟩ | ⟨rfl, apart, front, old, _, rfl⟩ | ⟨_, apart, old⟩
  · obtain rfl : word = [] := spelled
    exact Or.inl ⟨here, [], .nil, .refl⟩
  · have outside : fresh ∉ tail :=
      fun inside => unused head _ old (List.mem_cons_of_mem head inside)
    obtain ⟨first, second, tails, rfl, derivation, isTails, later⟩ := split spelled outside
    exact Or.inl ⟨here, tail ++ tails, .cons old isTails, derivation.append later⟩
  · obtain ⟨first, second, tails, rfl, derivation, isTails, later⟩ :=
      split spelled (unused symbol front old)
    have unrolled : (G.withTable table).Derives [symbol] ([symbol] ++ tails) := isTails.derives_head
    have chosen : (G.withTable table).Derives [symbol] first :=
      (Derives.of_body old).trans derivation
    exact Or.inr ⟨apart, unrolled.trans (chosen.append later)⟩
  · have derivation := derives_of_spelled (unused symbol body old) spelled
    exact Or.inr ⟨apart, (Derives.of_body old).trans derivation⟩

theorem derives_of_new (unused : ∀ symbol, ∀ body ∈ table.bodies symbol, fresh ∉ body)
    {u word : Word} (outside : fresh ∉ u) (final : fresh ∉ word)
    (derivation : (G.withTable table').Derives u word) : (G.withTable table).Derives u word := by
  have kept : Spelled (StandsFor G table head fresh) word word := by
    refine spelled_self fun symbol mem => Or.inr ⟨?_, .refl⟩
    rintro rfl
    exact final mem
  have spelled := kept.of_derives (contextFree_withTable G table')
    (fun symbol body mem v => moved.standsFor_of_body unused (mem_table_withTable.mp mem))
      derivation
  exact derives_of_spelled outside spelled

end Moved

end DirectRecursion

end LanguageTheory.Grammar

import Mathlib.Data.List.Pairwise
import LanguageTheory.Grammar.Derivation

/-!
What `Grammar.ofProductions` checks. A grammar that it returns is consistent; productions that have
a head and use declared symbols only are accepted, and the grammar then has just these productions,
with `ε` left out (`ofProductions_eq_ok`). The rules with single heads form the table on which the
operations on context-free grammars work (`mem_table_iff`).
-/

set_option autoImplicit false
set_option relaxedAutoImplicit false

namespace LanguageTheory

namespace Rules

theorem mem_productions_iff {rules : Rules} {p : Production} :
    p ∈ rules.productions ↔ p.body ∈ rules.bodies p.head := by
  simp only [productions, bodies, List.mem_flatMap, List.mem_map, OrderedSet.mem_toList]
  constructor
  · rintro ⟨e, mem, body, member, rfl⟩
    have found : rules.get? e.1 = some e.2 := OrderedTable.get?_eq_some_iff.mpr mem
    simpa [found] using member
  · intro member
    cases found : rules.get? p.head with
    | none => simp [found] at member
    | some bodies =>
      rw [found, Option.getD_some] at member
      exact ⟨(p.head, bodies), OrderedTable.get?_eq_some_iff.mp found, p.body, member, rfl⟩

theorem mem_productions_add {rules : Rules} {p q : Production} :
    q ∈ (rules.add p).productions ↔ q ∈ rules.productions ∨ q = p := by
  rw [mem_productions_iff, mem_productions_iff, bodies, add, OrderedTable.get?_insert]
  by_cases same : q.head = p.head
  · rw [if_pos same, Option.getD_some, OrderedSet.mem_insert, same]
    refine or_congr_right ⟨fun body => ?_, congrArg Production.body⟩
    cases p
    cases q
    cases same
    cases body
    rfl
  · rw [if_neg same]
    have other : q ≠ p := fun h => same (congrArg Production.head h)
    exact ⟨Or.inl, fun h => h.resolve_right other⟩

private theorem mem_keys_of_mem_productions {rules : Rules} {p : Production}
    (mem : p ∈ rules.productions) : p.head ∈ rules.keys := by
  obtain ⟨e, entry, member⟩ := List.mem_flatMap.mp mem
  obtain ⟨_, _, rfl⟩ := List.mem_map.mp member
  exact List.mem_map.mpr ⟨e, entry, rfl⟩

def Filled (rules : Rules) : Prop := ∀ e ∈ rules.entries, e.2.toList ≠ []

private theorem Filled.add {rules : Rules} (filled : rules.Filled) (p : Production) :
    (rules.add p).Filled := by
  intro e mem
  have found : (rules.add p).get? e.1 = some e.2 := OrderedTable.get?_eq_some_iff.mpr mem
  rw [Rules.add, OrderedTable.get?_insert] at found
  split at found
  · have added : p.body ∈ (rules.bodies p.head).insert p.body :=
      OrderedSet.mem_insert.mpr (Or.inr rfl)
    rw [← Option.some.inj found]
    exact List.ne_nil_of_mem added
  · exact filled e (OrderedTable.get?_eq_some_iff.mp found)

private theorem Filled.foldl_add {rules : Rules} (filled : rules.Filled) (given : List Production) :
    (given.foldl Rules.add rules).Filled := by
  induction given generalizing rules with
  | nil => exact filled
  | cons p given ih => exact ih (filled.add p)

private theorem bodies_insert_self {rules : Rules} {head : Word} {bodies : OrderedSet Word} :
    Rules.bodies (rules.insert head bodies) head = bodies := by
  rw [Rules.bodies, OrderedTable.get?_insert, if_pos rfl, Option.getD_some]

private theorem foldl_add_bodies {rules : Rules} {head : Word} {first : Word} {rest : List Word} :
    (((first :: rest).map (Production.mk head)).foldl Rules.add rules) =
      rules.insert head ((rules.bodies head).insertMany (first :: rest)) := by
  induction rest generalizing rules first with
  | nil => rfl
  | cons second rest ih =>
    have step := @ih (rules.add ⟨head, first⟩) second
    rw [List.map_cons, List.foldl_cons, step, Rules.add, bodies_insert_self,
      OrderedTable.insert_insert]
    rfl

private theorem bodies_of_get? {rules : Rules} {head : Word} {bodies : OrderedSet Word}
    (found : rules.get? head = some bodies) : rules.bodies head = bodies := by
  rw [Rules.bodies, found, Option.getD_some]

private theorem bodies_of_new {rules : Rules} {head : Word} (new : head ∉ rules.keys) :
    rules.bodies head = .empty := by
  rw [Rules.bodies, OrderedTable.get?_eq_none_iff.mpr new, Option.getD_none]

theorem entries_foldl_add {rules : Rules} {listed : List (Word × List Word)}
    (distinct : (rules.keys ++ listed.map Prod.fst).Nodup) (filled : ∀ e ∈ listed, e.2 ≠ []) :
    ((listed.flatMap fun e => e.2.map (Production.mk e.1)).foldl Rules.add rules).entries =
      rules.entries ++ listed.map fun e => (e.1, OrderedSet.ofList e.2) := by
  induction listed generalizing rules with
  | nil => simp
  | cons e listed ih =>
    obtain ⟨head, bodies⟩ := e
    have new : head ∉ rules.keys := fun old =>
      (List.nodup_append.mp distinct).2.2 head old head (by simp) rfl
    obtain ⟨first, rest, rfl⟩ := List.exists_cons_of_ne_nil (filled _ List.mem_cons_self)
    have grown : (rules.insert head (OrderedSet.ofList (first :: rest))).entries =
        rules.entries ++ [(head, OrderedSet.ofList (first :: rest))] :=
      OrderedTable.setEntry_of_not_mem new
    rw [List.flatMap_cons, List.foldl_append, foldl_add_bodies, bodies_of_new new]
    change ((listed.flatMap _).foldl Rules.add
      (rules.insert head (OrderedSet.ofList (first :: rest)))).entries = _
    rw [ih, grown, List.append_assoc, List.singleton_append, List.map_cons]
    · rw [OrderedTable.keys, grown]
      simpa [OrderedTable.keys] using distinct
    · exact fun e mem => filled e (List.mem_cons_of_mem _ mem)

theorem Filled.exists_production {rules : Rules} (filled : rules.Filled) {head : Word}
    {bodies : OrderedSet Word} (entry : (head, bodies) ∈ rules.entries) :
    ∃ body, ⟨head, body⟩ ∈ rules.productions := by
  obtain ⟨body, inside⟩ := List.exists_mem_of_ne_nil _ (filled _ entry)
  refine ⟨body, mem_productions_iff.mpr ?_⟩
  rwa [bodies_of_get? (OrderedTable.get?_eq_some_iff.mpr entry)]

theorem Filled.eq_empty {rules : Rules} (filled : rules.Filled)
    (none : ∀ p, p ∉ rules.productions) : rules = .empty := by
  refine OrderedTable.eq_of_entries_eq (List.eq_nil_iff_forall_not_mem.mpr fun e entry => ?_)
  obtain ⟨body, mem⟩ := filled.exists_production entry
  exact none _ mem

theorem same_of_mem_productions_iff {rules others : Rules} (filled : rules.Filled)
    (filled' : others.Filled) (same : ∀ p, p ∈ rules.productions ↔ p ∈ others.productions) :
    rules.Same OrderedSet.Same others := by
  constructor
  · rintro ⟨head, bodies⟩ entry
    obtain ⟨body, mem⟩ := filled.exists_production entry
    obtain ⟨bodies', found⟩ :=
      OrderedTable.mem_keys_iff.mp (mem_keys_of_mem_productions ((same _).mp mem))
    refine ⟨bodies', found, OrderedSet.same_iff.mpr fun other => ?_⟩
    have members := same ⟨head, other⟩
    rwa [mem_productions_iff, mem_productions_iff, bodies_of_get? found,
      bodies_of_get? (OrderedTable.get?_eq_some_iff.mpr entry)] at members
  · intro head known
    obtain ⟨⟨_, bodies⟩, entry, rfl⟩ := List.mem_map.mp known
    obtain ⟨body, mem⟩ := filled'.exists_production entry
    exact mem_keys_of_mem_productions ((same _).mpr mem)

theorem foldl_add_productions {rules : Rules} (filled : rules.Filled) :
    rules.productions.foldl Rules.add .empty = rules := by
  apply OrderedTable.eq_of_entries_eq
  have rebuilt := @entries_foldl_add .empty (rules.entries.map fun e => (e.1, e.2.toList)) (by
      simpa [OrderedTable.keys, OrderedTable.empty, Function.comp_def] using rules.nodup) (by
      intro e mem
      obtain ⟨stored, member, rfl⟩ := List.mem_map.mp mem
      exact filled stored member)
  rw [List.flatMap_map] at rebuilt
  refine rebuilt.trans ?_
  simp [OrderedTable.empty, Function.comp_def]

end Rules

namespace Grammar

variable {G : Grammar}

theorem withoutEpsilon_eq_self {body : Word} (visible : Symbol.epsilon ∉ body) :
    withoutEpsilon body = body := by
  refine List.filter_eq_self.mpr fun symbol mem => ?_
  rw [decide_eq_true_eq]
  rintro rfl
  exact visible mem

/-- The parts fit together: the start symbol is a non-terminal, heads are not empty, productions use
declared symbols only, and no body contains the symbol `ε`. -/
structure WellFormed (G : Grammar) : Prop where
  start_mem : G.start ∈ G.nonTerminals
  head_ne : ∀ p ∈ G.rules.productions, p.head ≠ []
  declared : ∀ p ∈ G.rules.productions, ∀ symbol ∈ p.head ++ p.body,
    symbol ∈ G.nonTerminals ∨ symbol ∈ G.terminals
  visible : ∀ p ∈ G.rules.productions, Symbol.epsilon ∉ p.body

private theorem mem_productions_foldl {rules : Rules} {given : List Production} {p : Production} :
    p ∈ (given.foldl (fun rules q => rules.add { q with body := withoutEpsilon q.body })
      rules).productions ↔
      p ∈ rules.productions ∨ ∃ q ∈ given, p = { q with body := withoutEpsilon q.body } := by
  induction given generalizing rules with
  | nil => simp
  | cons q given ih =>
    rw [List.foldl_cons, ih, Rules.mem_productions_add, or_assoc]
    simp only [List.mem_cons, exists_eq_or_imp]

private theorem productionFault?_eq_none {nonTerminals terminals : Alphabet} {p : Production}
    (fine : productionFault? nonTerminals terminals p = none) :
    p.head ≠ [] ∧ ∀ symbol ∈ p.head ++ withoutEpsilon p.body,
      symbol ∈ nonTerminals ∨ symbol ∈ terminals := by
  unfold productionFault? at fine
  split at fine
  · cases fine
  · rename_i head
    rw [Option.map_eq_none_iff, List.find?_eq_none] at fine
    refine ⟨fun empty => head (by rw [empty]; rfl), fun symbol mem => ?_⟩
    have declared := fine symbol mem
    rw [decide_eq_true_eq, not_and_or, not_not, not_not] at declared
    exact declared

private theorem productionFault?_of_declared {nonTerminals terminals : Alphabet} {p : Production}
    (head : p.head ≠ []) (declared : ∀ symbol ∈ p.head ++ withoutEpsilon p.body,
      symbol ∈ nonTerminals ∨ symbol ∈ terminals) :
    productionFault? nonTerminals terminals p = none := by
  have filled : ¬ p.head.isEmpty = true := fun empty => head (List.isEmpty_iff.mp empty)
  rw [productionFault?, if_neg filled, Option.map_eq_none_iff, List.find?_eq_none]
  intro symbol mem
  rw [decide_eq_true_eq, not_and_or, not_not, not_not]
  exact declared symbol mem

private theorem mem_keys_foldl {rules : Rules} {given : List Production} {head : Word} :
    head ∈ (given.foldl (fun rules q => rules.add { q with body := withoutEpsilon q.body })
      rules).keys ↔ head ∈ rules.keys ∨ ∃ q ∈ given, q.head = head := by
  induction given generalizing rules with
  | nil => simp
  | cons q given ih =>
    rw [List.foldl_cons, ih, Rules.add, OrderedTable.mem_keys_insert, or_assoc]
    simp only [List.mem_cons, exists_eq_or_imp, eq_comm (a := head)]

theorem ofProductions_eq_ok {nonTerminals terminals : Alphabet} {start : Symbol}
    {given : List Production} (begins : start ∈ nonTerminals) (heads : ∀ p ∈ given, p.head ≠ [])
    (declared : ∀ p ∈ given, ∀ symbol ∈ p.head ++ withoutEpsilon p.body,
      symbol ∈ nonTerminals ∨ symbol ∈ terminals) :
    ∃ rules, ofProductions nonTerminals terminals start given =
        .ok ⟨nonTerminals, terminals, start, rules⟩ ∧
      (∀ head, head ∈ rules.keys ↔ ∃ q ∈ given, q.head = head) ∧
      ∀ p, p ∈ rules.productions ↔ ∃ q ∈ given, p = { q with body := withoutEpsilon q.body } := by
  have faultless : given.findSome? (productionFault? nonTerminals terminals) = none :=
    List.findSome?_eq_none_iff.mpr fun p mem =>
      productionFault?_of_declared (heads p mem) (declared p mem)
  refine ⟨given.foldl (fun rules q => rules.add { q with body := withoutEpsilon q.body }) .empty,
    ?_, fun head => ?_, fun p => ?_⟩
  · rw [ofProductions, if_neg (not_not.mpr begins), faultless]
  · exact mem_keys_foldl.trans (or_iff_right List.not_mem_nil)
  · refine mem_productions_foldl.trans (or_iff_right ?_)
    rw [Rules.mem_productions_iff]
    exact OrderedSet.not_mem_empty _

theorem wellFormed_of_ofProductions {nonTerminals terminals : Alphabet} {start : Symbol}
    {given : List Production} (built : ofProductions nonTerminals terminals start given = .ok G) :
    G.WellFormed := by
  unfold ofProductions at built
  split at built
  · cases built
  · rename_i start_mem
    split at built
    · cases built
    · rename_i fine
      obtain rfl := Except.ok.inj built
      have origin {p : Production} (mem : p ∈ Rules.productions (given.foldl (fun rules q =>
          Rules.add rules { q with body := withoutEpsilon q.body }) OrderedTable.empty)) :
          ∃ q ∈ given, p = { q with body := withoutEpsilon q.body } := by
        refine (mem_productions_foldl.mp mem).resolve_left ?_
        rw [Rules.mem_productions_iff]
        exact OrderedSet.not_mem_empty _
      have checked (q : Production) (mem : q ∈ given) :=
        productionFault?_eq_none (List.findSome?_eq_none_iff.mp fine q mem)
      refine ⟨not_not.mp start_mem, fun p mem => ?_, fun p mem => ?_, fun p mem => ?_⟩
      · obtain ⟨q, hq, rfl⟩ := origin mem
        exact (checked q hq).1
      · obtain ⟨q, hq, rfl⟩ := origin mem
        exact (checked q hq).2
      · obtain ⟨q, _, rfl⟩ := origin mem
        simp [withoutEpsilon]

theorem parts_of_ofProductions {nonTerminals terminals : Alphabet} {start : Symbol}
    {given : List Production} (built : ofProductions nonTerminals terminals start given = .ok G) :
    G = ⟨nonTerminals, terminals, start, (given.map fun p =>
      { p with body := withoutEpsilon p.body }).foldl Rules.add .empty⟩ := by
  unfold ofProductions at built
  split at built
  · cases built
  · split at built
    · cases built
    · obtain rfl := Except.ok.inj built
      rw [List.foldl_map]

/-- The parts fit together, and every head has a body. -/
structure Consistent (G : Grammar) : Prop where
  fits : G.WellFormed
  filled : G.rules.Filled

theorem consistent_of_ofProductions {nonTerminals terminals : Alphabet} {start : Symbol}
    {given : List Production} (built : ofProductions nonTerminals terminals start given = .ok G) :
    G.Consistent := by
  refine ⟨wellFormed_of_ofProductions built, ?_⟩
  rw [parts_of_ofProductions built]
  exact Rules.Filled.foldl_add (fun e mem => (List.not_mem_nil mem).elim) _

private theorem mem_entries_singles
    {choose : Word × OrderedSet Word → Option (Symbol × OrderedSet Word)}
    (single : ∀ e r, choose e = some r ↔ e = ([r.1], r.2)) {head : Symbol}
    {bodies : OrderedSet Word} :
    (head, bodies) ∈ (OrderedTable.ofList (G.rules.entries.filterMap choose)).entries ↔
      ([head], bodies) ∈ G.rules.entries := by
  rw [OrderedTable.entries_ofList, List.mem_filterMap]
  · constructor
    · rintro ⟨e, mem, same⟩
      exact (single e _).mp same ▸ mem
    · exact fun mem => ⟨_, mem, (single _ _).mpr rfl⟩
  · refine List.pairwise_map.mpr (List.Pairwise.filterMap _ ?_ (List.pairwise_map.mp G.rules.nodup))
    intro e f different r he r' hf same
    rw [(single e r).mp he, (single f r').mp hf, same] at different
    exact different rfl

theorem mem_entries_table {head : Symbol} {bodies : OrderedSet Word} :
    (head, bodies) ∈ G.table.entries ↔ ([head], bodies) ∈ G.rules.entries := by
  refine mem_entries_singles ?_
  intro e r
  obtain ⟨_ | ⟨first, _ | ⟨second, rest⟩⟩, bodies⟩ := e
  · simp
  · simp [Prod.ext_iff]
  · simp

theorem mem_table_iff {head : Symbol} {body : Word} :
    (head, body) ∈ G.table.productions ↔ ⟨[head], body⟩ ∈ G.rules.productions := by
  simp only [RuleTable.productions, Rules.productions, List.mem_flatMap, List.mem_map]
  constructor
  · rintro ⟨e, mem, _, member, same⟩
    cases same
    exact ⟨([e.1], e.2), mem_entries_table.mp mem, body, member, rfl⟩
  · rintro ⟨e, mem, _, member, same⟩
    obtain ⟨single, rfl⟩ := Production.mk.inj same
    exact ⟨(head, e.2), mem_entries_table.mpr (single ▸ mem), _, member, rfl⟩

theorem requireContextFree_iff {operation : Operation} :
    G.requireContextFree operation = .ok () ↔ G.ContextFree := by
  by_cases free : G.ContextFree
  · rw [requireContextFree, rank, if_pos free]
    by_cases regular : G.rules.productions.all G.isRegularProduction = true
    · simp [regular, free]
    · simp [regular, free]
  · rw [requireContextFree, rank, if_neg free]
    by_cases monotone : G.rules.productions.all G.isMonotone = true
    · simp [monotone, free]
    · simp [monotone, free]

theorem ContextFree.head_mem (free : G.ContextFree) {head : Symbol} {body : Word}
    (mem : (head, body) ∈ G.table.productions) : head ∈ G.nonTerminals := by
  obtain ⟨A, hA, same⟩ := free _ (Rules.mem_keys_of_mem_productions (mem_table_iff.mp mem))
  exact (List.cons.inj same).1 ▸ hA

theorem ContextFree.exists_head (free : G.ContextFree) {p : Production}
    (mem : p ∈ G.rules.productions) :
    ∃ head ∈ G.nonTerminals, p.head = [head] ∧ (head, p.body) ∈ G.table.productions := by
  obtain ⟨A, hA, same⟩ := free _ (Rules.mem_keys_of_mem_productions mem)
  refine ⟨A, hA, same, mem_table_iff.mpr ?_⟩
  rwa [← same]

theorem ContextFree.exists_of_step (free : G.ContextFree) {u v : Word} (step : G.Step u v) :
    ∃ head body before after, (head, body) ∈ G.table.productions ∧
      u = before ++ [head] ++ after ∧ v = before ++ body ++ after := by
  obtain ⟨p, mem, before, after, rfl, rfl⟩ := step
  obtain ⟨head, _, single, member⟩ := free.exists_head mem
  exact ⟨head, p.body, before, after, member, by rw [single], rfl⟩

theorem ContextFree.wellFormed (free : G.ContextFree) (begins : G.start ∈ G.nonTerminals)
    (bodies : ∀ head body, (head, body) ∈ G.table.productions → ∀ symbol ∈ body,
      (symbol ∈ G.nonTerminals ∨ symbol ∈ G.terminals) ∧ symbol ≠ Symbol.epsilon) :
    G.WellFormed := by
  refine ⟨begins, fun p mem => ?_, fun p mem symbol member => ?_, fun p mem member => ?_⟩
  · obtain ⟨head, _, single, _⟩ := free.exists_head mem
    simp [single]
  · obtain ⟨head, known, single, production⟩ := free.exists_head mem
    rw [single, List.singleton_append, List.mem_cons] at member
    rcases member with rfl | member
    · exact Or.inl known
    · exact (bodies head p.body production symbol member).1
  · obtain ⟨head, _, _, production⟩ := free.exists_head mem
    exact (bodies head p.body production _ member).2 rfl

theorem ContextFree.key_mem (free : G.ContextFree) {head : Symbol} (mem : head ∈ G.table.keys) :
    head ∈ G.nonTerminals := by
  obtain ⟨e, entry, rfl⟩ := List.mem_map.mp mem
  obtain ⟨A, hA, same⟩ := free [e.1] (List.mem_map_of_mem (mem_entries_table.mp entry))
  exact (List.cons.inj same).1 ▸ hA

theorem mem_symbols_of_nonTerminal {symbol : Symbol} (mem : symbol ∈ G.nonTerminals) :
    symbol ∈ G.symbols := List.mem_append_left _ mem

theorem mem_symbols_of_terminal {symbol : Symbol} (mem : symbol ∈ G.terminals) :
    symbol ∈ G.symbols := List.mem_append_right _ mem

theorem WellFormed.body_declared (fits : G.WellFormed) {head symbol : Symbol} {body : Word}
    (mem : (head, body) ∈ G.table.productions) (member : symbol ∈ body) :
    symbol ∈ G.nonTerminals ∨ symbol ∈ G.terminals :=
  fits.declared _ (mem_table_iff.mp mem) symbol (List.mem_append_right _ member)

theorem WellFormed.body_mem_symbols (fits : G.WellFormed) {head : Symbol} {body : Word}
    (mem : (head, body) ∈ G.table.productions) : ∀ symbol ∈ body, symbol ∈ G.symbols :=
  fun _ member => (fits.body_declared mem member).elim mem_symbols_of_nonTerminal
    mem_symbols_of_terminal

theorem WellFormed.body_visible (fits : G.WellFormed) {head : Symbol} {body : Word}
    (mem : (head, body) ∈ G.table.productions) : Symbol.epsilon ∉ body :=
  fits.visible _ (mem_table_iff.mp mem)

end Grammar

end LanguageTheory

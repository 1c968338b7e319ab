import Mathlib.Data.List.Nodup
import Mathlib.Data.Set.List
import LanguageTheory.Proofs.Grammar.Yields

/-!
Tables of rules as grammars. The grammar of a table has the productions of the table
(`mem_table_ofTable`) and is context-free.
-/

set_option autoImplicit false
set_option relaxedAutoImplicit false

namespace LanguageTheory

namespace RuleTable

variable {table : RuleTable} {head other : Symbol} {body : Word}

theorem mem_bodies_iff : body ∈ table.bodies head ↔
    ∃ bodies, table.get? head = some bodies ∧ body ∈ bodies := by
  unfold bodies
  cases table.get? head with
  | none => simp
  | some bodies => simp

theorem mem_productions_iff : (head, body) ∈ table.productions ↔ body ∈ table.bodies head := by
  simp only [productions, List.mem_flatMap, List.mem_map, mem_bodies_iff,
    OrderedTable.get?_eq_some_iff]
  constructor
  · rintro ⟨e, mem, _, member, same⟩
    cases same
    exact ⟨e.2, mem, member⟩
  · rintro ⟨bodies, mem, member⟩
    exact ⟨(head, bodies), mem, body, member, rfl⟩

theorem mem_keys_of_mem_bodies (mem : body ∈ table.bodies head) : head ∈ table.keys := by
  obtain ⟨_, found, _⟩ := mem_bodies_iff.mp mem
  exact OrderedTable.mem_keys_of_get? found

theorem mem_bodies_insert {bodies : OrderedSet Word} :
    body ∈ RuleTable.bodies (table.insert head bodies) other ↔
      if other = head then body ∈ bodies else body ∈ table.bodies other := by
  simp only [mem_bodies_iff, OrderedTable.get?_insert]
  by_cases same : other = head
  · simp [same]
  · simp [same]

theorem bodies_of_mem {bodies : OrderedSet Word} (mem : (head, bodies) ∈ table.entries) :
    table.bodies head = bodies.toList := by
  rw [RuleTable.bodies, OrderedTable.get?_eq_some_iff.mpr mem, Option.map_some, Option.getD_some]

theorem nodup_bodies (table : RuleTable) (head : Symbol) : (table.bodies head).Nodup := by
  rw [RuleTable.bodies]
  cases table.get? head with
  | none => exact List.nodup_nil
  | some bodies => exact bodies.nodup

theorem mem_keys_filter {test : Symbol → Bool} :
    head ∈ (table.filter fun key _ => test key).keys ↔ head ∈ table.keys ∧ test head = true := by
  simp only [OrderedTable.mem_keys_iff, OrderedTable.get?_filter_eq_some_iff, exists_and_right]

theorem mem_bodies_mapValues {change : Symbol → OrderedSet Word → OrderedSet Word} :
    body ∈ RuleTable.bodies (table.mapValues change) head ↔
      ∃ bodies, table.get? head = some bodies ∧ body ∈ change head bodies := by
  rw [mem_bodies_iff, OrderedTable.get?_mapValues]
  simp only [Option.map_eq_some_iff, exists_exists_and_eq_and]

theorem mem_bodies_ofList_cons {bodies : OrderedSet Word} (new : head ∉ table.keys) :
    body ∈ RuleTable.bodies (OrderedTable.ofList ((head, bodies) :: table.entries)) other ↔
      (other = head ∧ body ∈ bodies) ∨ body ∈ table.bodies other := by
  have distinct : (((head, bodies) :: table.entries).map Prod.fst).Nodup :=
    List.nodup_cons.mpr ⟨new, table.nodup⟩
  simp only [mem_bodies_iff, OrderedTable.get?_eq_some_iff, OrderedTable.entries_ofList distinct,
    List.mem_cons, Prod.mk.injEq, or_and_right, exists_or, and_assoc, exists_and_left,
    exists_eq_left]

end RuleTable

namespace Grammar

variable {G : Grammar} {table : RuleTable}

section OfTable

variable {nonTerminals terminals : Alphabet} {start : Symbol}

private theorem mem_rules_ofTable {head : Word} {bodies : OrderedSet Word} :
    (head, bodies) ∈ (ofTable nonTerminals terminals start table).rules.entries ↔
      ∃ symbol, head = [symbol] ∧ (symbol, bodies) ∈ table.entries ∧ bodies.toList ≠ [] := by
  rw [ofTable, OrderedTable.entries_ofList, List.mem_map]
  · constructor
    · rintro ⟨⟨symbol, bodies⟩, mem, rfl, rfl⟩
      obtain ⟨mem, filled⟩ := List.mem_filter.mp mem
      exact ⟨symbol, rfl, mem, by simpa using filled⟩
    · rintro ⟨symbol, rfl, mem, filled⟩
      exact ⟨(symbol, bodies), List.mem_filter.mpr ⟨mem, by simpa using filled⟩, rfl⟩
  · have distinct := table.nodup.sublist ((List.filter_sublist
      (p := fun e => !e.2.toList.isEmpty)).map Prod.fst)
    have singles := List.Nodup.map (f := fun symbol : Symbol => [symbol])
      (fun _ _ same => (List.cons.inj same).1) distinct
    simpa [Function.comp_def] using singles

theorem mem_table_ofTable {head : Symbol} {body : Word} :
    (head, body) ∈ (ofTable nonTerminals terminals start table).table.productions ↔
      body ∈ table.bodies head := by
  rw [RuleTable.mem_productions_iff, RuleTable.mem_bodies_iff, RuleTable.mem_bodies_iff]
  simp only [OrderedTable.get?_eq_some_iff, mem_entries_table, mem_rules_ofTable]
  constructor
  · rintro ⟨bodies, ⟨_, same, mem, _⟩, member⟩
    obtain ⟨rfl, _⟩ := List.cons.inj same
    exact ⟨bodies, mem, member⟩
  · rintro ⟨bodies, mem, member⟩
    exact ⟨bodies, ⟨head, rfl, mem, List.ne_nil_of_mem member⟩, member⟩

theorem mem_nonTerminals_ofTable {symbol : Symbol} :
    symbol ∈ (ofTable nonTerminals terminals start table).nonTerminals ↔
      symbol ∈ nonTerminals ∨ symbol ∈ table.keys := OrderedSet.mem_insertMany

theorem contextFree_ofTable (nonTerminals terminals : Alphabet) (start : Symbol)
    (table : RuleTable) :
    (ofTable nonTerminals terminals start table).ContextFree := by
  intro head mem
  obtain ⟨e, entry, rfl⟩ := List.mem_map.mp mem
  obtain ⟨symbol, same, stored, _⟩ := mem_rules_ofTable.mp entry
  exact ⟨symbol, mem_nonTerminals_ofTable.mpr (Or.inr (List.mem_map_of_mem stored)), same⟩

theorem filled_ofTable (nonTerminals terminals : Alphabet) (start : Symbol) (table : RuleTable) :
    (ofTable nonTerminals terminals start table).rules.Filled := by
  intro e mem
  obtain ⟨_, _, _, filled⟩ := mem_rules_ofTable.mp mem
  exact filled

end OfTable

/-- A context-free grammar whose parts fit together and whose symbols are of one kind each. -/
structure Separated (G : Grammar) : Prop where
  fits : G.WellFormed
  free : G.ContextFree
  disjoint : G.Disjoint

/-- Only the start symbol may have an empty body, and if it has one, it is in no body. -/
def EmptyOnlyAtStart (G : Grammar) : Prop :=
  ∀ p ∈ G.rules.productions, p.body = [] → G.MayErase p.head

theorem ContextFree.emptyOnlyAtStart_iff (free : G.ContextFree) : G.EmptyOnlyAtStart ↔
    ∀ head, (head, []) ∈ G.table.productions → head = G.start ∧
      ∀ other body, (other, body) ∈ G.table.productions → G.start ∉ body := by
  constructor
  · intro only head mem
    obtain ⟨same, unused⟩ := only ⟨[head], []⟩ (mem_table_iff.mp mem) rfl
    refine ⟨(List.cons.inj same).1, fun other body production occurs => unused ?_⟩
    exact ⟨⟨[other], body⟩, mem_table_iff.mp production, occurs⟩
  · intro only p mem empty
    obtain ⟨head, _, single, member⟩ := free.exists_head mem
    obtain ⟨rfl, unused⟩ := only head (empty ▸ member)
    refine ⟨single, ?_⟩
    rintro ⟨q, other, occurs⟩
    obtain ⟨_, _, _, production⟩ := free.exists_head other
    exact unused _ _ production occurs

theorem mem_table_withTable {head : Symbol} {body : Word} :
    (head, body) ∈ (G.withTable table).table.productions ↔ body ∈ table.bodies head :=
  mem_table_ofTable

theorem contextFree_withTable (G : Grammar) (table : RuleTable) : (G.withTable table).ContextFree :=
  contextFree_ofTable G.nonTerminals G.terminals G.start table

private theorem get?_table (G : Grammar) (head : Symbol) :
    G.table.get? head = G.rules.get? [head] := by
  refine Option.ext fun bodies => ?_
  rw [OrderedTable.get?_eq_some_iff, mem_entries_table, OrderedTable.get?_eq_some_iff]

theorem toList_bodies (G : Grammar) (head : Symbol) :
    (G.rules.bodies [head]).toList = G.table.bodies head := by
  rw [Rules.bodies, RuleTable.bodies, get?_table]
  cases G.rules.get? [head] with
  | none => rfl
  | some bodies => rfl

theorem bodies_withTable (G : Grammar) (table : RuleTable) (head : Symbol) :
    (G.withTable table).table.bodies head = table.bodies head := by
  have stored (bodies : OrderedSet Word) : (G.withTable table).table.get? head = some bodies ↔
      table.get? head = some bodies ∧ bodies.toList ≠ [] := by
    simp only [OrderedTable.get?_eq_some_iff, mem_entries_table]
    refine mem_rules_ofTable.trans ⟨?_, fun found => ⟨head, rfl, found⟩⟩
    rintro ⟨_, same, found⟩
    obtain ⟨rfl, _⟩ := List.cons.inj same
    exact found
  rw [RuleTable.bodies, RuleTable.bodies]
  cases kept : (G.withTable table).table.get? head with
  | some bodies => rw [((stored bodies).mp kept).1]
  | none =>
    cases found : table.get? head with
    | none => rfl
    | some bodies =>
      have empty : bodies.toList = [] := by
        by_contra filled
        rw [(stored bodies).mpr ⟨found, filled⟩] at kept
        cases kept
      exact empty.symm

private theorem ContextFree.entries_rules (free : G.ContextFree) :
    G.rules.entries = G.table.entries.map fun e => ([e.1], e.2) := by
  have single : ∀ e ∈ G.rules.entries, e ∈ Set.range fun r : Symbol × OrderedSet Word =>
      ([r.1], r.2) := by
    intro e mem
    obtain ⟨head, _, same⟩ := free e.1 (List.mem_map_of_mem mem)
    exact ⟨(head, e.2), Prod.ext same.symm rfl⟩
  obtain ⟨listed, shape⟩ : G.rules.entries ∈ Set.range (List.map fun r : Symbol × OrderedSet Word =>
      ([r.1], r.2)) := by
    rw [Set.range_list_map]
    exact single
  have distinct : (listed.map Prod.fst).Nodup := by
    have heads := G.rules.nodup
    rw [← shape, List.map_map] at heads
    apply List.Nodup.of_map (fun symbol : Symbol => [symbol])
    rwa [List.map_map]
  have entries : G.table.entries = listed := by
    rw [table, ← shape, List.filterMap_map]
    exact (OrderedTable.entries_ofList (by simpa using distinct)).trans List.filterMap_some
  rw [entries, shape]

theorem withTable_table (free : G.ContextFree) (filled : G.rules.Filled) :
    G.withTable G.table = G := by
  have known : G.nonTerminals.insertMany G.table.keys = G.nonTerminals :=
    OrderedSet.insertMany_of_subset fun _ => free.key_mem
  have bodies : (G.table.entries.filter fun e => !e.2.toList.isEmpty) = G.table.entries :=
    List.filter_eq_self.mpr fun e mem => by simpa using filled _ (mem_entries_table.mp mem)
  rw [withTable, ofTable, known, bodies, ← free.entries_rules, OrderedTable.ofList_entries]

section MapValues

variable {change : Symbol → OrderedSet Word → OrderedSet Word}

theorem nonTerminals_mapValues (free : G.ContextFree) :
    (G.withTable (G.table.mapValues change)).nonTerminals = G.nonTerminals := by
  rw [withTable, ofTable, OrderedTable.keys_mapValues]
  exact OrderedSet.insertMany_of_subset fun _ => free.key_mem

theorem mem_nonTerminals_mapValues (free : G.ContextFree) {symbol : Symbol} :
    symbol ∈ (G.withTable (G.table.mapValues change)).nonTerminals ↔ symbol ∈ G.nonTerminals := by
  rw [nonTerminals_mapValues free]

theorem WellFormed.mapValues (fits : G.WellFormed) (free : G.ContextFree)
    (origin : ∀ head body, (head, body) ∈ (G.withTable
      (G.table.mapValues change)).table.productions →
      ∀ symbol ∈ body, ∃ head source, (head, source) ∈ G.table.productions ∧ symbol ∈ source) :
    (G.withTable (G.table.mapValues change)).WellFormed := by
  have known {symbol : Symbol} : symbol ∈ (G.withTable (G.table.mapValues change)).nonTerminals ↔
      symbol ∈ G.nonTerminals := mem_nonTerminals_mapValues free
  refine (contextFree_withTable G _).wellFormed (known.mpr fits.start_mem) ?_
  intro head body mem symbol inside
  obtain ⟨_, _, old, inside⟩ := origin head body mem symbol inside
  refine ⟨(fits.body_declared old inside).imp_left known.mpr, ?_⟩
  rintro rfl
  exact fits.body_visible old inside

theorem Separated.mapValues (apart : G.Separated)
    (origin : ∀ head body, (head, body) ∈ (G.withTable
      (G.table.mapValues change)).table.productions →
      ∀ symbol ∈ body, ∃ head source, (head, source) ∈ G.table.productions ∧ symbol ∈ source) :
    (G.withTable (G.table.mapValues change)).Separated :=
  ⟨apart.fits.mapValues apart.free origin, contextFree_withTable G _, fun symbol mem terminal =>
    apart.disjoint symbol ((mem_nonTerminals_mapValues apart.free).mp mem) terminal⟩

end MapValues

theorem mem_bodies_table_iff {head : Symbol} {body : Word} :
    body ∈ G.table.bodies head ↔ (head, body) ∈ G.table.productions :=
  RuleTable.mem_productions_iff.symm

theorem Derives.of_production {head : Symbol} {body : Word}
    (mem : (head, body) ∈ G.table.productions) :
    G.Derives [head] body := .single (Step.of_mem (mem_table_iff.mp mem))

theorem Derives.of_productions {H : Grammar} (free : G.ContextFree)
    (covered : ∀ head body, (head, body) ∈ G.table.productions → H.Derives [head] body) {u v : Word}
    (derivation : G.Derives u v) : H.Derives u v := by
  induction derivation with
  | refl => exact .refl
  | tail _ step ih =>
    obtain ⟨head, body, before, after, member, rfl, rfl⟩ := free.exists_of_step step
    exact ih.trans (((covered head body member).append_left before).append_right after)

end Grammar

end LanguageTheory

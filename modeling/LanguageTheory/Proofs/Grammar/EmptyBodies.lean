import LanguageTheory.Proofs.FreshName
import LanguageTheory.Proofs.Grammar.Saturation

/-!
Removing empty bodies. A body gives way to its erasures, the ways to leave out symbols that vanish;
`NonErasing` says which productions there are then, also when a new start symbol is needed. A
derivation that lets symbols vanish is turned into one that leaves them out, by what a symbol stands
for: it vanishes if the word is empty, and else the new grammar derives the word.
-/

set_option autoImplicit false
set_option relaxedAutoImplicit false

namespace LanguageTheory.Grammar

variable {G R : Grammar}

section Erasures

/-- The second word is the first one with some of its erasable symbols left out. -/
inductive Erasure (erasable : Symbol → Prop) : Word → Word → Prop
  | nil : Erasure erasable [] []
  | keep (symbol : Symbol) {u v : Word} (rest : Erasure erasable u v) :
      Erasure erasable (symbol :: u) (symbol :: v)
  | drop {symbol : Symbol} (gone : erasable symbol) {u v : Word} (rest : Erasure erasable u v) :
      Erasure erasable (symbol :: u) v

variable {erasable : Symbol → Prop} {symbol : Symbol} {u v : Word}

private theorem erasure_nil_iff : Erasure erasable [] v ↔ v = [] := by
  constructor
  · intro erasure
    cases erasure
    rfl
  · rintro rfl
    exact .nil

private theorem erasure_cons_iff : Erasure erasable (symbol :: u) v ↔
    (∃ rest, Erasure erasable u rest ∧ v = symbol :: rest) ∨
      (erasable symbol ∧ Erasure erasable u v) := by
  constructor
  · intro erasure
    cases erasure with
    | keep _ rest => exact Or.inl ⟨_, rest, rfl⟩
    | drop gone rest => exact Or.inr ⟨gone, rest⟩
  · rintro (⟨rest, erasure, rfl⟩ | ⟨gone, erasure⟩)
    · exact .keep symbol erasure
    · exact .drop gone erasure

private theorem Erasure.subset (erasure : Erasure erasable u v) : ∀ symbol ∈ v, symbol ∈ u := by
  induction erasure with
  | nil => exact fun symbol mem => mem
  | keep symbol _ ih =>
    refine List.forall_mem_cons.mpr ⟨List.mem_cons_self, fun other mem => ?_⟩
    exact List.mem_cons_of_mem _ (ih other mem)
  | drop _ _ ih => exact fun other mem => List.mem_cons_of_mem _ (ih other mem)

theorem Erasure.refl (u : Word) : Erasure erasable u u := by
  induction u with
  | nil => exact .nil
  | cons symbol u ih => exact .keep symbol ih

theorem Erasure.eq_of_forall_not (erasure : Erasure erasable u v)
    (kept : ∀ symbol ∈ u, ¬ erasable symbol) : v = u := by
  induction erasure with
  | nil => rfl
  | keep symbol _ ih => rw [ih fun other mem => kept other (List.mem_cons_of_mem symbol mem)]
  | drop gone _ _ => exact absurd gone (kept _ List.mem_cons_self)

private theorem Erasure.derives (erasure : Erasure erasable u v)
    (vanish : ∀ symbol, erasable symbol → G.Derives [symbol] []) : G.Derives u v := by
  induction erasure with
  | nil => exact .refl
  | keep symbol _ ih => exact ih.append_left [symbol]
  | drop gone _ ih => exact (vanish _ gone).append ih

def eraseNext (nullable : OrderedSet Symbol) (variants : OrderedSet Word) (symbol : Symbol) :
    OrderedSet Word :=
  OrderedSet.ofList (variants.toList.flatMap fun variant =>
    if symbol ∈ nullable then [variant ++ [symbol], variant] else [variant ++ [symbol]])

variable {nullable : OrderedSet Symbol} {variants : OrderedSet Word}

private theorem mem_eraseNext : v ∈ eraseNext nullable variants symbol ↔
    ∃ front ∈ variants, v = front ++ [symbol] ∨ (symbol ∈ nullable ∧ v = front) := by
  simp only [eraseNext, OrderedSet.mem_ofList, List.mem_flatMap, OrderedSet.mem_toList]
  by_cases known : symbol ∈ nullable
  · simp [known]
  · simp [known]

private theorem mem_foldl_eraseNext (word : Word) : v ∈ word.foldl (eraseNext nullable) variants ↔
    ∃ front ∈ variants, ∃ back,
      Erasure (fun symbol => symbol ∈ nullable) word back ∧ v = front ++ back := by
  induction word generalizing variants with
  | nil => simp [erasure_nil_iff]
  | cons symbol word ih =>
    rw [List.foldl_cons, ih]
    simp only [mem_eraseNext, erasure_cons_iff]
    constructor
    · rintro ⟨_, ⟨front, mem, rfl | ⟨gone, rfl⟩⟩, back, erasure, rfl⟩
      · exact ⟨front, mem, symbol :: back, Or.inl ⟨back, erasure, rfl⟩,
          List.append_assoc front _ back⟩
      · exact ⟨_, mem, back, Or.inr ⟨gone, erasure⟩, rfl⟩
    · rintro ⟨front, mem, _, ⟨back, erasure, rfl⟩ | ⟨gone, erasure⟩, rfl⟩
      · exact ⟨_, ⟨front, mem, Or.inl rfl⟩, back, erasure, List.append_cons front symbol back⟩
      · exact ⟨front, ⟨front, mem, Or.inr ⟨gone, rfl⟩⟩, _, erasure, rfl⟩

private theorem mem_erasures_iff (nullable : OrderedSet Symbol) (word : Word) :
    v ∈ erasures nullable word ↔
    Erasure (fun symbol => symbol ∈ nullable) word v := by
  have start : v ∈ erasures nullable word ↔ ∃ front ∈ OrderedSet.ofList [[]], ∃ back,
      Erasure (fun symbol => symbol ∈ nullable) word back ∧ v = front ++ back :=
        mem_foldl_eraseNext word
  rw [start]
  simp

private theorem mem_nonErasingTable {head : Symbol} {body : Word} :
    body ∈ G.nonErasingTable.bodies head ↔
    body ≠ [] ∧ ∃ source, (head, source) ∈ G.table.productions ∧
    Erasure G.Vanishes source body := by
  have same (source : Word) : body ∈ erasures G.nullableSymbols source ↔
      Erasure G.Vanishes source body := by
    simp only [mem_erasures_iff, mem_nullableSymbols_iff]
  have origin (source : Word) : (head, source) ∈ G.table.productions ↔
      ∃ bodies, G.table.get? head = some bodies ∧ source ∈ bodies := by
    rw [RuleTable.mem_productions_iff, RuleTable.mem_bodies_iff]
  rw [nonErasingTable, RuleTable.mem_bodies_mapValues]
  constructor
  · rintro ⟨bodies, found, member⟩
    obtain ⟨member, filled⟩ := List.mem_filter.mp (OrderedSet.mem_ofList.mp member)
    obtain ⟨source, old, variant⟩ := List.mem_flatMap.mp member
    exact ⟨by simpa using filled, source, (origin source).mpr ⟨bodies, found, old⟩,
      (same source).mp variant⟩
  · rintro ⟨filled, source, mem, erasure⟩
    obtain ⟨bodies, found, old⟩ := (origin source).mp mem
    refine ⟨bodies, found, OrderedSet.mem_ofList.mpr
      (List.mem_filter.mpr ⟨?_, by simpa using filled⟩)⟩
    exact List.mem_flatMap.mpr ⟨source, old, (same source).mpr erasure⟩

end Erasures

section NonErasing

/-- The productions of a grammar whose bodies are erasures of the bodies of another one. Only its
start symbol has an empty body, and that one if the old start symbol vanishes; a new start symbol
leads to the old one besides. -/
structure NonErasing (G R : Grammar) : Prop where
  free : R.ContextFree
  terminals : R.terminals = G.terminals
  mem_nonTerminals : ∀ symbol, symbol ∈ R.nonTerminals ↔ symbol = R.start ∨ symbol ∈ G.nonTerminals
  covers : ∀ head source body, (head, source) ∈ G.table.productions →
    Erasure G.Vanishes source body → body ≠ [] → (head, body) ∈ R.table.productions
  origin : ∀ head body, (head, body) ∈ R.table.productions →
    (body ≠ [] ∧ ∃ source, (head, source) ∈ G.table.productions ∧ Erasure G.Vanishes source body) ∨
    (head = R.start ∧ G.Vanishes G.start ∧ (body = [] ∨ (R.start ∉ G.symbols ∧ body = [G.start])))
  begins : R.start = G.start ∨
    (R.start ∉ G.symbols ∧ R.start ≠ Symbol.epsilon ∧ (R.start, [G.start]) ∈ R.table.productions ∧
      ∃ head source, (head, source) ∈ G.table.productions ∧ G.start ∈ source)
  erases : G.Vanishes G.start → (R.start, []) ∈ R.table.productions ∧
    ∀ head body, (head, body) ∈ R.table.productions → R.start ∉ body

private theorem mem_nonTerminals_withStart {start symbol : Symbol} {table : RuleTable}
    (keys : ∀ head ∈ table.keys, head = start ∨ head ∈ G.nonTerminals) :
    symbol ∈ (ofTable ((OrderedSet.ofList [start]).union G.nonTerminals) G.terminals start
      table).nonTerminals ↔ symbol = start ∨ symbol ∈ G.nonTerminals := by
  rw [mem_nonTerminals_ofTable, OrderedSet.mem_union, OrderedSet.mem_ofList, List.mem_singleton]
  exact or_iff_left_of_imp (keys symbol)

private theorem nonErasing_ofTable {start : Symbol} {table : RuleTable}
    (keys : ∀ head ∈ table.keys, head = start ∨ head ∈ G.nonTerminals)
    (kept : ∀ head, ∀ body ∈ G.nonErasingTable.bodies head, body ∈ table.bodies head)
    (origin : ∀ head, ∀ body ∈ table.bodies head, body ∈ G.nonErasingTable.bodies head ∨
      (head = start ∧ G.Vanishes G.start ∧ (body = [] ∨ (start ∉ G.symbols ∧ body = [G.start]))))
    (begins : start = G.start ∨ (start ∉ G.symbols ∧ start ≠ Symbol.epsilon ∧
      [G.start] ∈ table.bodies start ∧
      ∃ head, ∃ body ∈ G.nonErasingTable.bodies head, G.start ∈ body))
    (erases : G.Vanishes G.start → [] ∈ table.bodies start ∧
      ∀ head, ∀ body ∈ table.bodies head, start ∉ body) :
    G.NonErasing
      (ofTable ((OrderedSet.ofList [start]).union G.nonTerminals) G.terminals start table) where
  free := contextFree_ofTable _ _ _ _
  terminals := rfl
  mem_nonTerminals symbol := mem_nonTerminals_withStart keys
  covers head source body mem erasure filled :=
    mem_table_ofTable.mpr (kept head body (mem_nonErasingTable.mpr ⟨filled, source, mem, erasure⟩))
  origin head body mem :=
    (origin head body (mem_table_ofTable.mp mem)).imp_left mem_nonErasingTable.mp
  begins := by
    refine begins.imp_right ?_
    rintro ⟨new, visible, leads, head, body, mem, inside⟩
    obtain ⟨_, source, old, erasure⟩ := mem_nonErasingTable.mp mem
    exact ⟨new, visible, mem_table_ofTable.mpr leads, head, source, old, erasure.subset _ inside⟩
  erases vanish := (erases vanish).imp mem_table_ofTable.mpr fun unused head body mem =>
    unused head body (mem_table_ofTable.mp mem)

private theorem ContextFree.nonErasingTable_key_mem (free : G.ContextFree) {head : Symbol}
    (mem : head ∈ G.nonErasingTable.keys) : head ∈ G.nonTerminals := by
  rw [nonErasingTable, OrderedTable.keys_mapValues] at mem
  exact free.key_mem mem

private theorem nonErasing_sameStart (free : G.ContextFree) (vanishes : G.Vanishes G.start)
    (outside : ∀ head, ∀ body ∈ G.nonErasingTable.bodies head, G.start ∉ body) :
    G.NonErasing (ofTable ((OrderedSet.ofList [G.start]).union G.nonTerminals) G.terminals G.start
      (G.nonErasingTable.insert G.start
        (((G.nonErasingTable.get? G.start).getD .empty).insert []))) := by
  have bodies {head : Symbol} {body : Word} :
      body ∈ RuleTable.bodies (G.nonErasingTable.insert G.start
        (((G.nonErasingTable.get? G.start).getD .empty).insert [])) head ↔
        body ∈ G.nonErasingTable.bodies head ∨ (head = G.start ∧ body = []) := by
    rw [RuleTable.mem_bodies_insert]
    split
    · rename_i same
      subst same
      rw [OrderedSet.mem_insert, RuleTable.mem_bodies_iff]
      cases found : G.nonErasingTable.get? G.start with
      | none => simp
      | some old => simp
    · rename_i other
      exact (or_iff_left fun h => other h.1).symm
  refine nonErasing_ofTable (fun head mem => ?_) (fun head body mem => bodies.mpr (Or.inl mem))
    (fun head body mem => ?_) (Or.inl rfl) fun _ => ⟨bodies.mpr (Or.inr ⟨rfl, rfl⟩), ?_⟩
  · exact (OrderedTable.mem_keys_insert.mp mem).symm.imp_right free.nonErasingTable_key_mem
  · exact (bodies.mp mem).imp_right fun h => ⟨h.1, vanishes, Or.inl h.2⟩
  · intro head body mem
    rcases bodies.mp mem with old | ⟨_, rfl⟩
    · exact outside head body old
    · exact List.not_mem_nil

private theorem nonErasing_newStart (fits : G.WellFormed) (free : G.ContextFree)
    (vanishes : G.Vanishes G.start)
    (inside : ∃ head, ∃ body ∈ G.nonErasingTable.bodies head, G.start ∈ body) {fresh : Symbol}
    (new : fresh ∉ G.symbols) (visible : fresh ≠ Symbol.epsilon) :
    G.NonErasing (ofTable ((OrderedSet.ofList [fresh]).union G.nonTerminals) G.terminals fresh
      (OrderedTable.ofList
        ((fresh, OrderedSet.ofList [[G.start], []]) :: G.nonErasingTable.entries))) := by
  have unknown : fresh ∉ G.nonErasingTable.keys := fun mem =>
    new (mem_symbols_of_nonTerminal (free.nonErasingTable_key_mem mem))
  have bodies {head : Symbol} {body : Word} :
      body ∈ RuleTable.bodies (OrderedTable.ofList
        ((fresh, OrderedSet.ofList [[G.start], []]) :: G.nonErasingTable.entries)) head ↔
        (head = fresh ∧ (body = [G.start] ∨ body = [])) ∨ body ∈ G.nonErasingTable.bodies head := by
    rw [RuleTable.mem_bodies_ofList_cons unknown, OrderedSet.mem_ofList]
    simp
  have unused {head : Symbol} {body : Word} (mem : body ∈ G.nonErasingTable.bodies head) :
      fresh ∉ body := by
    intro occurs
    obtain ⟨_, source, old, erasure⟩ := mem_nonErasingTable.mp mem
    exact new (fits.body_mem_symbols old fresh (erasure.subset fresh occurs))
  refine nonErasing_ofTable (fun head mem => ?_) (fun head body mem => bodies.mpr (Or.inr mem))
    (fun head body mem => ?_) (Or.inr ⟨new, visible, bodies.mpr (Or.inl ⟨rfl, Or.inl rfl⟩), inside⟩)
    fun _ => ⟨bodies.mpr (Or.inl ⟨rfl, Or.inr rfl⟩), ?_⟩
  · refine (List.mem_cons.mp (OrderedTable.mem_keys_ofList.mp mem)).imp_right fun old => ?_
    exact free.nonErasingTable_key_mem old
  · rcases bodies.mp mem with ⟨same, rfl | rfl⟩ | old
    · exact Or.inr ⟨same, vanishes, Or.inr ⟨new, rfl⟩⟩
    · exact Or.inr ⟨same, vanishes, Or.inl rfl⟩
    · exact Or.inl old
  · intro head body mem
    rcases bodies.mp mem with ⟨_, rfl | rfl⟩ | old
    · rw [List.mem_singleton]
      rintro rfl
      exact new (mem_symbols_of_nonTerminal fits.start_mem)
    · exact List.not_mem_nil
    · exact unused old

theorem nonErasing_withoutErasing (fits : G.WellFormed) (free : G.ContextFree) :
    G.NonErasing G.withoutErasing := by
  unfold withoutErasing
  by_cases found : G.start ∈ G.nullableSymbols
  · have vanishes := mem_nullableSymbols_iff.mp found
    by_cases inside : ∃ p ∈ G.nonErasingTable.productions, G.start ∈ p.2
    · rw [if_pos found, if_pos inside]
      obtain ⟨p, mem, occurs⟩ := inside
      exact nonErasing_newStart fits free vanishes
        ⟨p.1, p.2, RuleTable.mem_productions_iff.mp mem, occurs⟩ (SymbolPool.fresh_not_mem _)
        (SymbolPool.fresh_ne_epsilon _)
    · rw [if_pos found, if_neg inside]
      refine nonErasing_sameStart free vanishes fun head body mem occurs => inside ?_
      exact ⟨(head, body), RuleTable.mem_productions_iff.mpr mem, occurs⟩
  · rw [if_neg found]
    have persists : ¬ G.Vanishes G.start :=
      fun vanishes => found (mem_nullableSymbols_iff.mpr vanishes)
    exact nonErasing_ofTable (fun head mem => Or.inr (free.nonErasingTable_key_mem mem))
      (fun _ _ mem => mem) (fun _ _ mem => Or.inl mem) (Or.inl rfl)
      fun vanishes => absurd vanishes persists

theorem filled_withoutErasing (G : Grammar) : G.withoutErasing.rules.Filled := by
  unfold withoutErasing
  by_cases found : G.start ∈ G.nullableSymbols
  · by_cases inside : ∃ p ∈ G.nonErasingTable.productions, G.start ∈ p.2
    · rw [if_pos found, if_pos inside]
      exact filled_ofTable _ _ _ _
    · rw [if_pos found, if_neg inside]
      exact filled_ofTable _ _ _ _
  · rw [if_neg found]
    exact filled_ofTable _ _ _ _

end NonErasing

section Words

variable {head : Symbol} {body word : Word}

private theorem NonErasing.symbol_of_body (nonErasing : G.NonErasing R) (fits : G.WellFormed)
    (mem : (head, body) ∈ R.table.productions) {symbol : Symbol} (inside : symbol ∈ body) :
    ∃ head source, (head, source) ∈ G.table.productions ∧ symbol ∈ source := by
  rcases nonErasing.origin head body mem with ⟨_, source, old, erasure⟩ | ⟨_, _, rfl | ⟨new, rfl⟩⟩
  · exact ⟨head, source, old, erasure.subset symbol inside⟩
  · exact absurd inside List.not_mem_nil
  · obtain rfl := List.mem_singleton.mp inside
    rcases nonErasing.begins with same | ⟨_, _, _, occurs⟩
    · exact absurd (same ▸ mem_symbols_of_nonTerminal fits.start_mem) new
    · exact occurs

theorem NonErasing.wellFormed (nonErasing : G.NonErasing R) (fits : G.WellFormed) :
    R.WellFormed := by
  have known (symbol : Symbol) := nonErasing.mem_nonTerminals symbol
  refine nonErasing.free.wellFormed ((known _).mpr (Or.inl rfl)) ?_
  intro head body mem symbol inside
  obtain ⟨_, _, old, inside⟩ := nonErasing.symbol_of_body fits mem inside
  rw [nonErasing.terminals]
  refine ⟨(fits.body_declared old inside).imp_left fun h => (known _).mpr (Or.inr h), ?_⟩
  rintro rfl
  exact fits.body_visible old inside

theorem NonErasing.separated (nonErasing : G.NonErasing R) (apart : G.Separated) : R.Separated := by
  refine ⟨nonErasing.wellFormed apart.fits, nonErasing.free, fun symbol mem terminal => ?_⟩
  rw [nonErasing.terminals] at terminal
  rcases (nonErasing.mem_nonTerminals symbol).mp mem with rfl | old
  · rcases nonErasing.begins with same | ⟨new, _⟩
    · exact apart.disjoint _ (same ▸ apart.fits.start_mem) terminal
    · exact new (mem_symbols_of_terminal terminal)
  · exact apart.disjoint symbol old terminal

/-- The symbol of the old grammar for which a symbol stands: the old start symbol for the new
one. -/
def original (G R : Grammar) (symbol : Symbol) : Symbol :=
  if symbol = R.start then G.start else symbol

private theorem NonErasing.original_eq (nonErasing : G.NonErasing R) {symbol : Symbol}
    (old : symbol ∈ G.symbols) : original G R symbol = symbol := by
  unfold original
  split
  · rename_i start
    rcases nonErasing.begins with same | ⟨new, _⟩
    · exact same.symm.trans start.symm
    · exact absurd (start ▸ old) new
  · rfl

private theorem NonErasing.derives_of_new (nonErasing : G.NonErasing R) (apart : G.Separated)
    (terminals : G.IsTerminalWord word) (derivation : R.Derives [R.start] word) :
    G.Derives [G.start] word := by
  have same {symbol : Symbol} (old : symbol ∈ G.symbols) := nonErasing.original_eq old
  have start : original G R R.start = G.start := if_pos rfl
  have spelled : Spelled (fun symbol v => G.Derives [original G R symbol] v) [R.start] word := by
    refine Spelled.of_derives nonErasing.free (fun head body mem v spelled => ?_) derivation
      (spelled_self fun symbol mem => ?_)
    · rcases nonErasing.origin head body mem with
        ⟨_, source, old, erasure⟩ | ⟨rfl, vanishes, rfl | ⟨_, rfl⟩⟩
      · -- What the body leaves out vanishes in the old grammar.
        have later : G.Derives body v := spelled.derives fun symbol inside v means => by
          rwa [same (apart.fits.body_mem_symbols old symbol (erasure.subset symbol inside))]
            at means
        have erased := erasure.derives fun _ vanishes => Vanishes.derives vanishes
        rw [same (mem_symbols_of_nonTerminal (apart.free.head_mem old))]
        exact ((Derives.of_production old).trans erased).trans later
      · obtain rfl : v = [] := spelled
        rw [start]
        exact vanishes.derives
      · have means := spelled_singleton.mp spelled
        rwa [same (mem_symbols_of_nonTerminal apart.fits.start_mem), ← start] at means
    · rw [same (mem_symbols_of_terminal (terminals symbol mem))]
      exact .refl
  rw [← start]
  exact spelled_singleton.mp spelled

/-- What a symbol stands for without empty bodies. -/
def MeansVisibly (G R : Grammar) (symbol : Symbol) (word : Word) : Prop :=
  (word = [] → G.Vanishes symbol) ∧ (word ≠ [] → R.Derives [symbol] word)

private theorem vanishes_of_spelled {u : Word} (spelled : Spelled (MeansVisibly G R) u []) :
    ∀ symbol ∈ u, G.Vanishes symbol := by
  induction u with
  | nil => exact fun symbol mem => absurd mem List.not_mem_nil
  | cons symbol u ih =>
    obtain ⟨front, back, whole, means, later⟩ := spelled
    obtain ⟨rfl, rfl⟩ := List.append_eq_nil_iff.mp whole.symm
    exact List.forall_mem_cons.mpr ⟨means.1 rfl, ih later⟩

private theorem exists_erasure {u : Word} (spelled : Spelled (MeansVisibly G R) u word) :
    ∃ body, Erasure G.Vanishes u body ∧ R.Derives body word ∧ (body = [] → word = []) := by
  induction u generalizing word with
  | nil =>
    obtain rfl : word = [] := spelled
    exact ⟨[], .nil, .refl, fun _ => rfl⟩
  | cons symbol u ih =>
    obtain ⟨front, back, rfl, means, later⟩ := spelled
    obtain ⟨body, erasure, derivation, empty⟩ := ih later
    by_cases gone : front = []
    · subst gone
      exact ⟨body, .drop (means.1 rfl) erasure, derivation, empty⟩
    · refine ⟨symbol :: body, .keep symbol erasure, (means.2 gone).append derivation,
        fun none => ?_⟩
      cases none

private theorem NonErasing.meansVisibly_of_body (nonErasing : G.NonErasing R) {source : Word}
    (mem : (head, source) ∈ G.table.productions)
    (spelled : Spelled (MeansVisibly G R) source word) :
    MeansVisibly G R head word := by
  constructor
  · rintro rfl
    exact vanishes_iff.mpr ⟨source, mem, vanishes_of_spelled spelled⟩
  · intro filled
    obtain ⟨body, erasure, derivation, empty⟩ := exists_erasure spelled
    have kept := nonErasing.covers head source body mem erasure fun none => filled (empty none)
    exact (Derives.of_production kept).trans derivation

private theorem NonErasing.derives_of_old (nonErasing : G.NonErasing R) (free : G.ContextFree)
    (derivation : G.Derives [G.start] word) : R.Derives [R.start] word := by
  have kept : Spelled (MeansVisibly G R) word word :=
    spelled_self fun symbol _ => ⟨fun none => absurd none (List.cons_ne_nil _ _), fun _ => .refl⟩
  have spelled :=
    kept.of_derives free (fun head source mem v => nonErasing.meansVisibly_of_body mem)
    derivation
  have means : MeansVisibly G R G.start word := spelled_singleton.mp spelled
  by_cases empty : word = []
  · subst empty
    exact .of_production (nonErasing.erases (means.1 rfl)).1
  · rcases nonErasing.begins with same | ⟨_, _, leads, _⟩
    · rw [same]
      exact means.2 empty
    · exact (Derives.of_production leads).trans (means.2 empty)

theorem NonErasing.generates_iff (nonErasing : G.NonErasing R) (apart : G.Separated) (word : Word) :
    R.Generates word ↔ G.Generates word := by
  unfold Generates IsTerminalWord
  rw [nonErasing.terminals]
  exact and_congr_right fun terminals =>
    ⟨nonErasing.derives_of_new apart terminals, nonErasing.derives_of_old apart.free⟩

theorem NonErasing.emptyOnlyAtStart (nonErasing : G.NonErasing R) : R.EmptyOnlyAtStart := by
  refine nonErasing.free.emptyOnlyAtStart_iff.mpr fun head mem => ?_
  rcases nonErasing.origin head [] mem with ⟨filled, _⟩ | ⟨rfl, vanishes, _⟩
  · exact absurd rfl filled
  · exact ⟨rfl, (nonErasing.erases vanishes).2⟩

end Words

end LanguageTheory.Grammar

import LanguageTheory.Proofs.Grammar.Construction
import LanguageTheory.Proofs.Grammar.SymbolSets

/-!
What the FIRST sets hold. `Vanishes` and `Leads` are the two ways in which a symbol meets the input:
it disappears, or it turns into a word that begins with a given terminal. Both are counted by the
height of the tree that shows them. FIRST of a non-terminal holds `ε` exactly if it vanishes and a
terminal exactly if it leads to it (`mem_firstSets_iff`), and FIRST of a word follows from that of
its symbols (`mem_firstOfWord_iff`).
-/

set_option autoImplicit false
set_option relaxedAutoImplicit false

namespace LanguageTheory.Grammar

variable {G : Grammar}

section Fronted

variable {vanishes leads vanishes' leads' : Symbol → Prop}

/-- Some symbol of the word leads, and all symbols before it vanish. -/
def Fronted (vanishes leads : Symbol → Prop) : Word → Prop
  | [] => False
  | symbol :: rest => leads symbol ∨ (vanishes symbol ∧ Fronted vanishes leads rest)

theorem fronted_append {u v : Word} : Fronted vanishes leads (u ++ v) ↔
    Fronted vanishes leads u ∨ ((∀ symbol ∈ u, vanishes symbol) ∧ Fronted vanishes leads v) := by
  induction u with
  | nil => simp [Fronted]
  | cons symbol u ih =>
    rw [List.cons_append, Fronted, Fronted, ih, List.forall_mem_cons]
    tauto

theorem Fronted.imp {word : Word} (first : ∀ symbol ∈ word, vanishes symbol → vanishes' symbol)
    (second : ∀ symbol ∈ word, leads symbol → leads' symbol)
    (fronted : Fronted vanishes leads word) : Fronted vanishes' leads' word := by
  induction word with
  | nil => exact fronted
  | cons symbol rest ih =>
    rw [List.forall_mem_cons] at first second
    rcases fronted with lead | ⟨vanish, later⟩
    · exact Or.inl (second.1 lead)
    · exact Or.inr ⟨first.1 vanish, ih first.2 second.2 later⟩

theorem Fronted.exists_lead {word : Word} (fronted : Fronted vanishes leads word) :
    ∃ symbol ∈ word, leads symbol := by
  induction word with
  | nil => exact fronted.elim
  | cons symbol rest ih =>
    rcases fronted with lead | ⟨_, later⟩
    · exact ⟨symbol, List.mem_cons_self, lead⟩
    · obtain ⟨other, mem, lead⟩ := ih later
      exact ⟨other, List.mem_cons_of_mem symbol mem, lead⟩

theorem fronted_exists_iff {index : Type} {leads : index → Symbol → Prop} {word : Word} :
    Fronted vanishes (fun symbol => ∃ i, leads i symbol) word ↔
      ∃ i, Fronted vanishes (leads i) word := by
  induction word with
  | nil => exact ⟨fun h => h.elim, fun ⟨_, h⟩ => h⟩
  | cons symbol rest ih =>
    constructor
    · rintro (⟨i, lead⟩ | ⟨vanish, later⟩)
      · exact ⟨i, Or.inl lead⟩
      · obtain ⟨i, fronted⟩ := ih.mp later
        exact ⟨i, Or.inr ⟨vanish, fronted⟩⟩
    · rintro ⟨i, lead | ⟨vanish, later⟩⟩
      · exact Or.inl ⟨i, lead⟩
      · exact Or.inr ⟨vanish, ih.mpr ⟨i, later⟩⟩

end Fronted

section Meaning

/-- The symbol disappears by a tree of at most the given height. -/
def VanishesWithin (G : Grammar) : Nat → Symbol → Prop
  | 0, _ => False
  | height + 1, head => ∃ body, (head, body) ∈ G.table.productions ∧
      ∀ symbol ∈ body, G.VanishesWithin height symbol

/-- The symbol derives the empty word. -/
def Vanishes (G : Grammar) (symbol : Symbol) : Prop := ∃ height, G.VanishesWithin height symbol

/-- The symbol turns into a word that begins with `t`; on the way down to `t` there are as many
productions as the height says. -/
def LeadsWithin (G : Grammar) (t : Symbol) : Nat → Symbol → Prop
  | 0, symbol => symbol = t ∧ symbol ∉ G.nonTerminals
  | height + 1, head => ∃ body, (head, body) ∈ G.table.productions ∧
      Fronted G.Vanishes (G.LeadsWithin t height) body

/-- The symbol derives a word that begins with `t`. -/
def Leads (G : Grammar) (t symbol : Symbol) : Prop := ∃ height, G.LeadsWithin t height symbol

def Begins (G : Grammar) (t : Symbol) (word : Word) : Prop := Fronted G.Vanishes (G.Leads t) word

private theorem VanishesWithin.succ {height : Nat} {symbol : Symbol}
    (vanish : G.VanishesWithin height symbol) : G.VanishesWithin (height + 1) symbol := by
  induction height generalizing symbol with
  | zero => exact vanish.elim
  | succ height ih =>
    obtain ⟨body, mem, all⟩ := vanish
    exact ⟨body, mem, fun other member => ih (all other member)⟩

theorem VanishesWithin.mono {low high : Nat} (le : low ≤ high) {symbol : Symbol}
    (vanish : G.VanishesWithin low symbol) : G.VanishesWithin high symbol := by
  induction le with
  | refl => exact vanish
  | step _ ih => exact ih.succ

private theorem exists_common_height {word : Word} (vanish : ∀ symbol ∈ word, G.Vanishes symbol) :
    ∃ height, ∀ symbol ∈ word, G.VanishesWithin height symbol := by
  induction word with
  | nil => exact ⟨0, fun symbol mem => absurd mem List.not_mem_nil⟩
  | cons symbol rest ih =>
    rw [List.forall_mem_cons] at vanish
    obtain ⟨first, now⟩ := vanish.1
    obtain ⟨second, later⟩ := ih vanish.2
    refine ⟨max first second, List.forall_mem_cons.mpr ⟨now.mono (le_max_left _ _), ?_⟩⟩
    exact fun other mem => (later other mem).mono (le_max_right _ _)

theorem vanishes_iff {head : Symbol} : G.Vanishes head ↔
    ∃ body, (head, body) ∈ G.table.productions ∧ ∀ symbol ∈ body, G.Vanishes symbol := by
  constructor
  · rintro ⟨_ | height, vanish⟩
    · exact vanish.elim
    · obtain ⟨body, mem, all⟩ := vanish
      exact ⟨body, mem, fun symbol member => ⟨height, all symbol member⟩⟩
  · rintro ⟨body, mem, all⟩
    obtain ⟨height, within⟩ := exists_common_height all
    exact ⟨height + 1, body, mem, within⟩

theorem Vanishes.mem (free : G.ContextFree) {symbol : Symbol} (vanish : G.Vanishes symbol) :
    symbol ∈ G.nonTerminals := by
  obtain ⟨_, mem, _⟩ := vanishes_iff.mp vanish
  exact free.head_mem mem

theorem begins_iff_exists_height {t : Symbol} {word : Word} : G.Begins t word ↔
    ∃ height, Fronted G.Vanishes (G.LeadsWithin t height) word := fronted_exists_iff

theorem leads_iff {t symbol : Symbol} : G.Leads t symbol ↔ (symbol = t ∧ symbol ∉ G.nonTerminals) ∨
    ∃ body, (symbol, body) ∈ G.table.productions ∧ G.Begins t body := by
  constructor
  · rintro ⟨_ | height, lead⟩
    · exact Or.inl lead
    · obtain ⟨body, mem, fronted⟩ := lead
      exact Or.inr ⟨body, mem, begins_iff_exists_height.mpr ⟨height, fronted⟩⟩
  · rintro (self | ⟨body, mem, begins⟩)
    · exact ⟨0, self⟩
    · obtain ⟨height, fronted⟩ := begins_iff_exists_height.mp begins
      exact ⟨height + 1, body, mem, fronted⟩

theorem leads_iff_eq (free : G.ContextFree) {t symbol : Symbol}
    (outside : symbol ∉ G.nonTerminals) :
    G.Leads t symbol ↔ symbol = t := by
  rw [leads_iff]
  constructor
  · rintro (⟨same, _⟩ | ⟨_, mem, _⟩)
    · exact same
    · exact absurd (free.head_mem mem) outside
  · exact fun same => Or.inl ⟨same, outside⟩

theorem leads_height {t symbol : Symbol} {height : Nat} (lead : G.LeadsWithin t height symbol)
    (inside : symbol ∈ G.nonTerminals) : ∃ lower, height = lower + 1 := by
  cases height with
  | zero => exact absurd inside lead.2
  | succ lower => exact ⟨lower, rfl⟩

private theorem WellFormed.not_leads_epsilon (fits : G.WellFormed) {symbol : Symbol}
    (visible : symbol ≠ Symbol.epsilon) : ¬ G.Leads Symbol.epsilon symbol := by
  rintro ⟨height, lead⟩
  induction height generalizing symbol with
  | zero => exact visible lead.1
  | succ height ih =>
    obtain ⟨body, mem, fronted⟩ := lead
    obtain ⟨other, member, lead⟩ := fronted.exists_lead
    exact ih (fun h => fits.body_visible mem (h ▸ member)) lead

theorem WellFormed.not_begins_epsilon (fits : G.WellFormed) {word : Word}
    (visible : Symbol.epsilon ∉ word) : ¬ G.Begins Symbol.epsilon word := by
  intro begins
  obtain ⟨symbol, mem, lead⟩ := begins.exists_lead
  exact fits.not_leads_epsilon (fun h => visible (h ▸ mem)) lead

end Meaning

section Sets

open SymbolSets

variable {sets : SymbolSets}

theorem mem_visible {members : SortedSet Symbol} {a : Symbol} :
    a ∈ visible members ↔ a ∈ members ∧ a ≠ Symbol.epsilon := by
  rw [visible, SortedSet.mem_filter, decide_eq_true_eq]

/-- The symbol has `a` in its set, or is `a` and stands for itself. -/
def Offers (G : Grammar) (sets : SymbolSets) (a symbol : Symbol) : Prop :=
  a ∈ sets.of symbol ∨ symbol = a ∧ symbol ∉ G.nonTerminals

private theorem mem_firstOfWord (keys : sets.keys = G.nonTerminals.toList) {word : Word}
    (unseen : Symbol.epsilon ∉ word) {a : Symbol} : a ∈ G.firstOfWord sets word ↔
      (a = Symbol.epsilon ∧ ∀ symbol ∈ word, Symbol.epsilon ∈ sets.of symbol) ∨
      (a ≠ Symbol.epsilon ∧
        Fronted (fun symbol => Symbol.epsilon ∈ sets.of symbol) (G.Offers sets a) word) := by
  induction word with
  | nil => simp [firstOfWord, Fronted]
  | cons symbol rest ih =>
    rw [List.mem_cons, not_or] at unseen
    unfold firstOfWord
    rw [List.forall_mem_cons, Fronted, Offers]
    cases found : sets.get? symbol with
    | none =>
      have outside : symbol ∉ sets.keys := OrderedTable.get?_eq_none_iff.mp found
      have none (b : Symbol) : b ∉ sets.of symbol := fun mem => outside (mem_keys_of_mem mem)
      have terminal : symbol ∉ G.nonTerminals := by
        rwa [keys] at outside
      simp only [SortedSet.mem_singleton, none, terminal, false_and, and_false, false_or, or_false,
        not_false_eq_true, and_true]
      constructor
      · rintro rfl
        exact ⟨fun h => unseen.1 h.symm, rfl⟩
      · exact fun h => h.2.symm
    | some first =>
      have known : symbol ∈ G.nonTerminals :=
        OrderedSet.mem_toList.mp (keys ▸ OrderedTable.mem_keys_of_get? found)
      have content : sets.of symbol = first := by rw [of, found, Option.getD_some]
      have stays : ¬ (symbol = a ∧ symbol ∉ G.nonTerminals) := fun h => h.2 known
      dsimp only
      rw [if_pos known, content, or_iff_left stays]
      by_cases erasable : Symbol.epsilon ∈ first
      · rw [if_pos erasable, SortedSet.mem_union, mem_visible, ih unseen.2]
        tauto
      · simp only [erasable, if_false, false_and, and_false, false_or, or_false]
        constructor
        · exact fun mem => ⟨fun h => erasable (h ▸ mem), mem⟩
        · exact And.right

def setSymbols (G : Grammar) : List Symbol := Symbol.epsilon :: Symbol.endOfInput :: G.symbols

private theorem mem_setSymbols_of_declared {a : Symbol}
    (declared : a ∈ G.nonTerminals ∨ a ∈ G.terminals) :
    a ∈ G.setSymbols := by
  have known : a ∈ G.symbols := by
    rw [symbols, List.mem_append]
    exact declared
  exact List.mem_cons_of_mem _ (List.mem_cons_of_mem _ known)

private theorem entries_emptySets (G : Grammar) :
    G.emptySets.entries = G.nonTerminals.toList.map fun symbol => (symbol, .empty) := by
  apply OrderedTable.entries_ofList
  rw [List.map_map]
  exact (List.map_id' G.nonTerminals.toList).symm ▸ G.nonTerminals.nodup

theorem keys_emptySets (G : Grammar) : G.emptySets.keys = G.nonTerminals.toList := by
  rw [OrderedTable.keys, entries_emptySets, List.map_map]
  exact List.map_id' _

theorem not_mem_emptySets (symbol a : Symbol) : a ∉ G.emptySets.of symbol := by
  intro mem
  obtain ⟨members, found⟩ := OrderedTable.mem_keys_iff.mp (mem_keys_of_mem mem)
  have entry := OrderedTable.get?_eq_some_iff.mp found
  rw [entries_emptySets] at entry
  obtain ⟨_, _, same⟩ := List.mem_map.mp entry
  rw [of, found, ← (Prod.mk.inj same).2] at mem
  exact SortedSet.not_mem_empty a mem

private theorem confined_emptySets (G : Grammar) :
    Confined G.nonTerminals.toList G.setSymbols G.emptySets :=
  ⟨G.keys_emptySets, fun symbol a mem => absurd mem (not_mem_emptySets symbol a)⟩

theorem lt_setCapacity (G : Grammar) :
    G.nonTerminals.toList.length * G.setSymbols.length < G.setCapacity := Nat.lt_succ_self _

def firstDemands (G : Grammar) : List Demand :=
  G.table.productions.map fun p => (p.1, fun sets => G.firstOfWord sets p.2)

private theorem firstRound_eq (G : Grammar) : G.firstRound = sweep G.firstDemands := by
  funext sets
  rw [sweep, firstDemands, List.foldl_map]
  rfl

theorem mem_setSymbols_of_firstOfWord {whole : SymbolSets}
    (confined : Confined G.nonTerminals.toList G.setSymbols whole) {word : Word}
    (unseen : Symbol.epsilon ∉ word)
    (declared : ∀ symbol ∈ word, symbol ∈ G.nonTerminals ∨ symbol ∈ G.terminals) {a : Symbol}
    (mem : a ∈ G.firstOfWord whole word) : a ∈ G.setSymbols := by
  rcases (mem_firstOfWord confined.1 unseen).mp mem with ⟨rfl, _⟩ | ⟨_, fronted⟩
  · exact List.mem_cons_self
  · obtain ⟨symbol, member, offered | ⟨rfl, _⟩⟩ := fronted.exists_lead
    · exact confined.2 symbol a offered
    · exact mem_setSymbols_of_declared (declared symbol member)

private theorem WellFormed.modest_firstDemands (fits : G.WellFormed) :
    Modest G.nonTerminals.toList G.setSymbols G.firstDemands := by
  intro d hd sets confined a mem
  obtain ⟨p, hp, rfl⟩ := List.mem_map.mp hd
  exact mem_setSymbols_of_firstOfWord confined (fits.body_visible hp)
    (fun _ => fits.body_declared hp) mem

theorem WellFormed.confined_firstSets (fits : G.WellFormed) :
    Confined G.nonTerminals.toList G.setSymbols G.firstSets := by
  rw [firstSets, firstRound_eq]
  exact G.confined_emptySets.stabilize fits.modest_firstDemands _

private theorem WellFormed.firstSets_closed (fits : G.WellFormed) (free : G.ContextFree)
    {head a : Symbol} {body : Word} (mem : (head, body) ∈ G.table.productions)
    (member : a ∈ G.firstOfWord G.firstSets body) : a ∈ G.firstSets.of head := by
  have met : G.firstSets.Meets (head, fun sets => G.firstOfWord sets body) := by
    rw [firstSets, firstRound_eq]
    exact G.confined_emptySets.meets_stabilize fits.modest_firstDemands G.lt_setCapacity _
      (List.mem_map.mpr ⟨_, mem, rfl⟩)
  refine met ?_ a member
  rw [fits.confined_firstSets.1]
  exact free.head_mem mem

/-- The sets hold nothing but what the productions give. -/
def Sound (G : Grammar) (sets : SymbolSets) : Prop :=
  sets.keys = G.nonTerminals.toList ∧ ∀ symbol a, a ∈ sets.of symbol →
    (a = Symbol.epsilon ∧ G.Vanishes symbol) ∨ (a ≠ Symbol.epsilon ∧ G.Leads a symbol)

private theorem Sound.firstOfWord (sound : G.Sound sets) {word : Word}
    (unseen : Symbol.epsilon ∉ word) {a : Symbol} (mem : a ∈ G.firstOfWord sets word) :
    (a = Symbol.epsilon ∧ ∀ symbol ∈ word, G.Vanishes symbol) ∨
      (a ≠ Symbol.epsilon ∧ G.Begins a word) := by
  have vanish (symbol : Symbol) (erasable : Symbol.epsilon ∈ sets.of symbol) : G.Vanishes symbol :=
    (sound.2 symbol _ erasable).elim And.right fun h => absurd rfl h.1
  rcases (mem_firstOfWord sound.1 unseen).mp mem with ⟨same, all⟩ | ⟨other, fronted⟩
  · exact Or.inl ⟨same, fun symbol member => vanish symbol (all symbol member)⟩
  · refine Or.inr ⟨other, fronted.imp (fun symbol _ => vanish symbol) ?_⟩
    rintro symbol _ (offered | self)
    · exact ((sound.2 symbol a offered).resolve_left fun h => other h.1).2
    · exact leads_iff.mpr (Or.inl self)

private theorem WellFormed.sound_firstSets (fits : G.WellFormed) : G.Sound G.firstSets := by
  rw [firstSets, firstRound_eq]
  refine stabilize_induction (P := G.Sound) ?_ _
    ⟨G.keys_emptySets, fun symbol a mem => absurd mem (not_mem_emptySets symbol a)⟩
  intro sets sound
  refine sweep_induction ?_ sound
  intro d hd sets sound
  obtain ⟨p, hp, rfl⟩ := List.mem_map.mp hd
  refine ⟨keys_extend.trans sound.1, fun symbol a mem => ?_⟩
  rcases mem_extend.mp mem with old | ⟨rfl, _, new⟩
  · exact sound.2 symbol a old
  · refine (sound.firstOfWord (fits.body_visible hp) new).imp ?_ ?_
    · exact fun ⟨same, all⟩ => ⟨same, vanishes_iff.mpr ⟨p.2, hp, all⟩⟩
    · exact fun ⟨other, begins⟩ => ⟨other, leads_iff.mpr (Or.inr ⟨p.2, hp, begins⟩)⟩

theorem WellFormed.epsilon_mem_firstSets (fits : G.WellFormed) (free : G.ContextFree)
    {symbol : Symbol} : Symbol.epsilon ∈ G.firstSets.of symbol ↔ G.Vanishes symbol := by
  constructor
  · intro mem
    exact ((fits.sound_firstSets.2 symbol _ mem).resolve_right fun h => h.1 rfl).2
  · rintro ⟨height, vanish⟩
    induction height generalizing symbol with
    | zero => exact vanish.elim
    | succ height ih =>
      obtain ⟨body, mem, all⟩ := vanish
      refine fits.firstSets_closed free mem ?_
      rw [mem_firstOfWord fits.confined_firstSets.1 (fits.body_visible mem)]
      exact Or.inl ⟨rfl, fun other member => ih (all other member)⟩

theorem WellFormed.mem_firstSets (fits : G.WellFormed) (free : G.ContextFree) {symbol a : Symbol}
    (inside : symbol ∈ G.nonTerminals) (other : a ≠ Symbol.epsilon) :
    a ∈ G.firstSets.of symbol ↔ G.Leads a symbol := by
  constructor
  · intro mem
    exact ((fits.sound_firstSets.2 symbol a mem).resolve_left fun h => other h.1).2
  · rintro ⟨height, lead⟩
    induction height generalizing symbol with
    | zero => exact absurd inside lead.2
    | succ height ih =>
      obtain ⟨body, mem, fronted⟩ := lead
      refine fits.firstSets_closed free mem ?_
      rw [mem_firstOfWord fits.confined_firstSets.1 (fits.body_visible mem)]
      refine Or.inr ⟨other, fronted.imp ?_ ?_⟩
      · exact fun symbol _ vanish => (fits.epsilon_mem_firstSets free).mpr vanish
      · intro symbol _ lead
        by_cases known : symbol ∈ G.nonTerminals
        · exact Or.inl (ih known lead)
        · exact Or.inr ⟨(leads_iff_eq free known).mp ⟨height, lead⟩, known⟩

theorem WellFormed.mem_firstOfWord_iff (fits : G.WellFormed) (free : G.ContextFree) {word : Word}
    (unseen : Symbol.epsilon ∉ word) {a : Symbol} : a ∈ G.firstOfWord G.firstSets word ↔
      (a = Symbol.epsilon ∧ ∀ symbol ∈ word, G.Vanishes symbol) ∨
        (a ≠ Symbol.epsilon ∧ G.Begins a word) := by
  refine ⟨fits.sound_firstSets.firstOfWord unseen, fun h => ?_⟩
  rw [mem_firstOfWord fits.confined_firstSets.1 unseen]
  refine h.imp ?_ ?_
  · exact fun ⟨same, all⟩ =>
      ⟨same, fun symbol mem => (fits.epsilon_mem_firstSets free).mpr (all symbol mem)⟩
  · rintro ⟨other, begins⟩
    refine ⟨other, begins.imp ?_ ?_⟩
    · exact fun symbol _ vanish => (fits.epsilon_mem_firstSets free).mpr vanish
    · intro symbol _ lead
      by_cases known : symbol ∈ G.nonTerminals
      · exact Or.inl ((fits.mem_firstSets free known other).mpr lead)
      · exact Or.inr ⟨(leads_iff_eq free known).mp lead, known⟩

end Sets

end LanguageTheory.Grammar

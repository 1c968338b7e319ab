import LanguageTheory.Proofs.Grammar.Follow
import LanguageTheory.Proofs.Grammar.LeftCorner
import LanguageTheory.Proofs.Grammar.Saturation

/-!
What FIRST and FOLLOW say about derivations. FIRST of a word holds a terminal exactly if the word
derives one that begins with it, and `ε` exactly if it derives the empty word (`firsts_exact`).
FOLLOW of a non-terminal holds a terminal exactly if the terminal comes right after it in some
derived word, and the end marker exactly if the non-terminal can stand at the end of what the start
symbol derives (`follows_exact`). One half of this is that the productions add nothing else to the
sets; the other is that the sets are closed under derivations and not only under productions
(`WellFormed.mem_followSets_of_derives`).
-/

set_option autoImplicit false
set_option relaxedAutoImplicit false

namespace LanguageTheory.Grammar

open SymbolSets

variable {G : Grammar} {head symbol t : Symbol} {word : Word}

section First

theorem derives_nil_iff (free : G.ContextFree) :
    G.Derives word [] ↔ ∀ symbol ∈ word, G.Vanishes symbol :=
  ⟨fun derivation => ((derives_iff_yields free).mp derivation).vanishes,
    fun all => derives_nil fun symbol mem => (all symbol mem).derives⟩

private theorem exists_derives_of_fronted {leads : Symbol → Prop}
    (each : ∀ symbol, leads symbol → ∃ rest, G.Derives [symbol] (t :: rest))
    (fronted : Fronted G.Vanishes leads word) : ∃ rest, G.Derives word (t :: rest) := by
  obtain ⟨before, symbol, after, rfl, vanish, lead⟩ := fronted_iff_split.mp fronted
  obtain ⟨rest, derivation⟩ := each symbol lead
  have gone : G.Derives before [] := derives_nil fun other mem => (vanish other mem).derives
  exact ⟨rest ++ after, gone.append (derivation.append_right after)⟩

private theorem Leads.exists_derives (lead : G.Leads t symbol) :
    ∃ rest, G.Derives [symbol] (t :: rest) := by
  obtain ⟨height, within⟩ := lead
  induction height generalizing symbol with
  | zero =>
    obtain ⟨rfl, _⟩ := within
    exact ⟨[], .refl⟩
  | succ height ih =>
    obtain ⟨body, mem, fronted⟩ := within
    obtain ⟨rest, derivation⟩ := exists_derives_of_fronted (fun _ => ih) fronted
    exact ⟨rest, (Derives.of_production mem).trans derivation⟩

private theorem WellFormed.mem_terminals_of_leads (fits : G.WellFormed)
    (declared : symbol ∈ G.symbols) (lead : G.Leads t symbol) : t ∈ G.terminals := by
  obtain ⟨height, within⟩ := lead
  induction height generalizing symbol with
  | zero =>
    obtain ⟨rfl, outside⟩ := within
    exact (List.mem_append.mp declared).resolve_left outside
  | succ height ih =>
    obtain ⟨body, mem, fronted⟩ := within
    obtain ⟨other, inside, lead⟩ := fronted.exists_lead
    exact ih (fits.body_mem_symbols mem other inside) lead

theorem WellFormed.begins_iff (fits : G.WellFormed) (free : G.ContextFree) (disjoint : G.Disjoint)
    (declared : ∀ symbol ∈ word, symbol ∈ G.symbols) :
    G.Begins t word ↔ t ∈ G.terminals ∧ ∃ rest, G.Derives word (t :: rest) := by
  constructor
  · intro begins
    obtain ⟨symbol, mem, lead⟩ := begins.exists_lead
    exact ⟨fits.mem_terminals_of_leads (declared symbol mem) lead,
      exists_derives_of_fronted (fun _ => Leads.exists_derives) begins⟩
  · rintro ⟨terminal, rest, derivation⟩
    have outside : t ∉ G.nonTerminals := fun known => disjoint t known terminal
    exact ((derives_iff_yields free).mp derivation).begins outside

/-- The set holds the terminals with which words derived from the given one begin, `ε` if the empty
word is derived, and nothing else. -/
structure IsFirst (G : Grammar) (word : Word) (first : SortedSet Symbol) : Prop where
  terminal_iff : ∀ t ∈ G.terminals, t ∈ first ↔ ∃ rest, G.Derives word (t :: rest)
  epsilon_iff : Symbol.epsilon ∈ first ↔ G.Derives word []
  nothing_else : ∀ a ∈ first, a = Symbol.epsilon ∨ a ∈ G.terminals

private theorem WellFormed.isFirst (fits : G.WellFormed) (free : G.ContextFree)
    (disjoint : G.Disjoint) (hidden : Symbol.epsilon ∉ G.symbols)
    (declared : ∀ symbol ∈ word, symbol ∈ G.symbols) {first : SortedSet Symbol}
    (members : ∀ a, a ∈ first ↔ (a = Symbol.epsilon ∧ ∀ symbol ∈ word, G.Vanishes symbol) ∨
      (a ≠ Symbol.epsilon ∧ G.Begins a word)) :
    G.IsFirst word first where
  terminal_iff t terminal := by
    have visible : t ≠ Symbol.epsilon := by
      rintro rfl
      exact hidden (mem_symbols_of_terminal terminal)
    rw [members, fits.begins_iff free disjoint declared]
    simp [visible, terminal]
  epsilon_iff := by
    rw [members, derives_nil_iff free]
    simp
  nothing_else a mem := by
    rcases (members a).mp mem with ⟨same, _⟩ | ⟨_, begins⟩
    · exact Or.inl same
    · exact Or.inr ((fits.begins_iff free disjoint declared).mp begins).1

private theorem WellFormed.mem_firstSets_iff (fits : G.WellFormed) (free : G.ContextFree)
    (inside : symbol ∈ G.nonTerminals) (a : Symbol) : a ∈ G.firstSets.of symbol ↔
      (a = Symbol.epsilon ∧ ∀ other ∈ [symbol], G.Vanishes other) ∨
        (a ≠ Symbol.epsilon ∧ G.Begins a [symbol]) := by
  have begins : G.Begins a [symbol] ↔ G.Leads a symbol := or_iff_left fun h => h.2
  rw [List.forall_mem_singleton, begins]
  by_cases same : a = Symbol.epsilon
  · subst same
    simp [fits.epsilon_mem_firstSets free]
  · simp [same, fits.mem_firstSets free inside same]

private theorem WellFormed.get?_firstSets (fits : G.WellFormed) (inside : symbol ∈ G.nonTerminals) :
    G.firstSets.get? symbol = some (G.firstSets.of symbol) := by
  apply get?_eq_some_of
  rw [fits.confined_firstSets.1]
  exact inside

private theorem firsts_eq (free : G.ContextFree) : G.firsts = .ok G.firstSets := by
  rw [firsts, requireContextFree_iff.mpr free]
  rfl

/-- FIRST of a context-free grammar is what the derivations say, for every non-terminal and every
word of declared symbols; and the non-terminals that derive the empty word are the nullable ones. -/
theorem firsts_exact (fits : G.WellFormed) (free : G.ContextFree) (disjoint : G.Disjoint)
    (hidden : Symbol.epsilon ∉ G.symbols) :
    ∃ sets, G.firsts = .ok sets ∧
      (∀ A ∈ G.nonTerminals, ∃ first, sets.get? A = some first ∧ G.IsFirst [A] first ∧
        (G.Derives [A] [] ↔ A ∈ G.nullableSymbols)) ∧
      ∀ word, (∀ symbol ∈ word, symbol ∈ G.symbols) →
        G.IsFirst word (G.firstOfWord sets word) := by
  refine ⟨G.firstSets, firsts_eq free, fun A inside => ?_, fun word declared => ?_⟩
  · have declared : ∀ symbol ∈ [A], symbol ∈ G.symbols :=
      List.forall_mem_singleton.mpr (mem_symbols_of_nonTerminal inside)
    refine ⟨_, fits.get?_firstSets inside, ?_, ?_⟩
    · exact fits.isFirst free disjoint hidden declared (fits.mem_firstSets_iff free inside)
    · rw [mem_nullableSymbols_iff, derives_nil_iff free, List.forall_mem_singleton]
  · have unseen : Symbol.epsilon ∉ word := fun mem => hidden (declared _ mem)
    exact fits.isFirst free disjoint hidden declared fun a => fits.mem_firstOfWord_iff free unseen

/-- `A` vanishes in front of `B`, which never ends: what `S` derives begins with `a` and not with
`b`. -/
theorem firsts_exact_improductive :
    ∃ G, ofProductions (OrderedSet.ofList ["S", "A", "B"]) (OrderedSet.ofList ["a", "b"]) "S"
        [⟨["S"], ["S", "b"]⟩, ⟨["S"], ["A", "B"]⟩, ⟨["A"], ["a", "A"]⟩, ⟨["A"], []⟩,
          ⟨["B"], ["B", "b"]⟩] = .ok G ∧
      G.WellFormed ∧ G.ContextFree ∧ G.Disjoint ∧ Symbol.epsilon ∉ G.symbols ∧
      (∃ rest, G.Derives ["S"] ("a" :: rest)) ∧ (¬ ∃ rest, G.Derives ["S"] ("b" :: rest)) ∧
      G.Derives ["A", "A"] [] ∧ ¬ G.Derives ["A", "B"] [] := by
  obtain ⟨G, sets, built, free, disjoint, hidden, declared, a, b, computed, begins, other, erasable,
      solid⟩ :
      ∃ G sets, ofProductions (OrderedSet.ofList ["S", "A", "B"]) (OrderedSet.ofList ["a", "b"]) "S"
          [⟨["S"], ["S", "b"]⟩, ⟨["S"], ["A", "B"]⟩, ⟨["A"], ["a", "A"]⟩, ⟨["A"], []⟩,
            ⟨["B"], ["B", "b"]⟩] = .ok G ∧
        G.ContextFree ∧ G.Disjoint ∧ Symbol.epsilon ∉ G.symbols ∧
        (∀ word ∈ [["S"], ["A", "A"], ["A", "B"]], ∀ symbol ∈ word, symbol ∈ G.symbols) ∧
        "a" ∈ G.terminals ∧ "b" ∈ G.terminals ∧ G.firsts = .ok sets ∧
        "a" ∈ G.firstOfWord sets ["S"] ∧ "b" ∉ G.firstOfWord sets ["S"] ∧
        Symbol.epsilon ∈ G.firstOfWord sets ["A", "A"] ∧
        Symbol.epsilon ∉ G.firstOfWord sets ["A", "B"] :=
    ⟨_, _, rfl, by decide, by decide, by decide, by decide, by decide, by decide, rfl, by decide,
      by decide, by decide, by decide⟩
  have fits := wellFormed_of_ofProductions built
  obtain ⟨sets', computed', _, exact⟩ := firsts_exact fits free disjoint hidden
  obtain rfl : sets = sets' := Except.ok.inj (computed.symm.trans computed')
  have start := exact ["S"] (declared _ (by simp))
  have pair := exact ["A", "A"] (declared _ (by simp))
  have mixed := exact ["A", "B"] (declared _ (by simp))
  exact ⟨G, built, fits, free, disjoint, hidden, (start.terminal_iff "a" a).mp begins,
    mt (start.terminal_iff "b" b).mpr other, pair.epsilon_iff.mp erasable,
    mt mixed.epsilon_iff.mpr solid⟩

end First

section Follow

variable {root : Symbol} {before after body rest left right : Word} {a : Symbol}

/-- What begins the word or, if the word vanishes, what follows the symbol that ends with it. -/
def ComesNext (G : Grammar) (behind a : Symbol) (word : Word) : Prop :=
  G.Begins a word ∨ ((∀ symbol ∈ word, G.Vanishes symbol) ∧ a ∈ G.followSets.of behind)

private theorem comesNext_append : G.ComesNext root a (left ++ right) ↔
    G.Begins a left ∨ ((∀ symbol ∈ left, G.Vanishes symbol) ∧ G.ComesNext root a right) := by
  unfold ComesNext Begins
  rw [fronted_append, List.forall_mem_append]
  tauto

private theorem ComesNext.fold (mem : (head, body) ∈ G.table.productions)
    (next : G.ComesNext root a (left ++ (body ++ right))) :
    G.ComesNext root a (left ++ head :: right) := by
  have single : G.ComesNext root a (body ++ right) → G.ComesNext root a ([head] ++ right) := by
    rw [comesNext_append, comesNext_append, List.forall_mem_singleton]
    refine Or.imp (fun begins => ?_) (And.imp_left fun vanish => ?_)
    · exact Or.inl (leads_iff.mpr (Or.inr ⟨body, mem, begins⟩))
    · exact vanishes_iff.mpr ⟨body, mem, vanish⟩
  rw [comesNext_append] at next ⊢
  exact next.imp_right (And.imp_right single)

/-- FOLLOW is closed under derivations: what comes next behind a non-terminal of a derived word is
in the set of the non-terminal. -/
theorem WellFormed.mem_followSets_of_derives (fits : G.WellFormed) (free : G.ContextFree)
    (derivation : G.Derives [root] (before ++ symbol :: after)) (inside : symbol ∈ G.nonTerminals)
    (next : G.ComesNext root a after) : a ∈ G.followSets.of symbol := by
  generalize whole : before ++ symbol :: after = word at derivation
  induction derivation generalizing before symbol after with
  | refl =>
    obtain ⟨rfl, same⟩ | ⟨_, none⟩ := List.append_eq_singleton_iff.mp whole
    · obtain ⟨rfl, rfl⟩ := List.cons.inj same
      exact (next.resolve_left id).2
    · cases none
  | tail _ step ih =>
    obtain ⟨head, body, left, right, mem, rfl, rfl⟩ := free.exists_of_step step
    rw [List.append_assoc] at whole
    -- The symbol stands before the body that was put in, in it or behind it.
    rcases split_append whole with ⟨rest, rfl, rfl⟩ | ⟨front, rfl, shape⟩
    · have earlier : before ++ symbol :: (rest ++ head :: right) =
          before ++ symbol :: rest ++ [head] ++ right := by simp
      exact ih inside (next.fold mem) earlier
    · rcases split_append shape.symm with ⟨rest, cut, rfl⟩ | ⟨front, rfl, rfl⟩
      · rw [cut] at mem
        apply fits.followSets_closed free mem inside
        refine (comesNext_append.mp next).imp_right (And.imp_right fun later => ?_)
        have earlier : left ++ head :: right = left ++ [head] ++ right := by simp
        exact ih (free.head_mem mem) later earlier
      · have earlier : left ++ head :: front ++ symbol :: after =
            left ++ [head] ++ (front ++ symbol :: after) := by simp
        exact ih inside next earlier

/-- The terminal comes right after the symbol in a word that is derived from some non-terminal. -/
def StandsBefore (G : Grammar) (symbol t : Symbol) : Prop :=
  ∃ root ∈ G.nonTerminals, ∃ before after, G.Derives [root] (before ++ symbol :: t :: after)

/-- The symbol stands at the end of a word that is derived from the start symbol. -/
def CanEnd (G : Grammar) (symbol : Symbol) : Prop :=
  ∃ before, G.Derives [G.start] (before ++ [symbol])

private theorem Derives.into_body (derivation : G.Derives [root] (left ++ head :: right))
    (mem : (head, before ++ symbol :: rest) ∈ G.table.productions) (vanish : G.Derives rest []) :
    G.Derives [root] (left ++ before ++ symbol :: right) := by
  have last : G.Derives (before ++ symbol :: rest) (before ++ [symbol]) := by
    simpa using vanish.append_left (before ++ [symbol])
  have whole : G.Derives [head] (before ++ [symbol]) := (Derives.of_production mem).trans last
  have inner := (whole.append_left left).append_right right
  simp only [List.append_assoc, List.singleton_append] at inner ⊢
  exact derivation.trans inner

private theorem StandsBefore.into_body (stands : G.StandsBefore head t)
    (mem : (head, before ++ symbol :: rest) ∈ G.table.productions) (vanish : G.Derives rest []) :
    G.StandsBefore symbol t := by
  obtain ⟨root, known, left, right, derivation⟩ := stands
  exact ⟨root, known, left ++ before, right, derivation.into_body mem vanish⟩

private theorem CanEnd.into_body (ends : G.CanEnd head)
    (mem : (head, before ++ symbol :: rest) ∈ G.table.productions) (vanish : G.Derives rest []) :
    G.CanEnd symbol := by
  obtain ⟨left, derivation⟩ := ends
  exact ⟨left ++ before, derivation.into_body mem vanish⟩

private theorem standsBefore_of_production (free : G.ContextFree)
    (mem : (head, before ++ symbol :: rest) ∈ G.table.productions)
    (later : G.Derives rest (t :: after)) : G.StandsBefore symbol t := by
  have inner : G.Derives (before ++ symbol :: rest) (before ++ symbol :: t :: after) := by
    simpa using later.append_left (before ++ [symbol])
  exact ⟨head, free.head_mem mem, before, after, (Derives.of_production mem).trans inner⟩

/-- Derivations show the terminal, or the end of what the start symbol derives, right after the
symbol. -/
def MayFollow (G : Grammar) (symbol a : Symbol) : Prop :=
  (a = Symbol.endOfInput ∧ G.CanEnd symbol) ∨ (a ∈ G.terminals ∧ G.StandsBefore symbol a)

private theorem MayFollow.into_body (may : G.MayFollow head a)
    (mem : (head, before ++ symbol :: rest) ∈ G.table.productions) (vanish : G.Derives rest []) :
    G.MayFollow symbol a := by
  refine may.imp (And.imp_right fun ends => ?_) (And.imp_right fun stands => ?_)
  · exact ends.into_body mem vanish
  · exact stands.into_body mem vanish

def FollowSound (G : Grammar) (sets : SymbolSets) : Prop :=
  ∀ symbol a, a ∈ sets.of symbol → G.MayFollow symbol a

private theorem FollowSound.demand (fits : G.WellFormed) (free : G.ContextFree)
    (disjoint : G.Disjoint) {follows : SymbolSets} (sound : G.FollowSound follows) {o : Occurrence}
    (occurs : o ∈ G.occurrences) (mem : a ∈ o.demand follows) : G.MayFollow o.symbol a := by
  obtain ⟨before, rest, production, _, content⟩ := mem_occurrences.mp occurs
  have unseen := fits.rest_visible production
  have declared : ∀ symbol ∈ rest, symbol ∈ G.symbols := fun symbol inside =>
    fits.body_mem_symbols production symbol
      (List.mem_append_right before (List.mem_cons_of_mem _ inside))
  rw [mem_demand, content, fits.mem_firstOfWord_iff free unseen,
    fits.mem_firstOfWord_iff free unseen] at mem
  rcases mem with ⟨first, visible⟩ | ⟨erasable, old⟩
  · have begins := (first.resolve_left fun h => visible h.1).2
    obtain ⟨terminal, later, derivation⟩ := (fits.begins_iff free disjoint declared).mp begins
    exact Or.inr ⟨terminal, standsBefore_of_production free production derivation⟩
  · have vanish := (derives_nil_iff free).mpr (erasable.resolve_right fun h => h.1 rfl).2
    exact (sound o.head a old).into_body production vanish

private theorem WellFormed.followSound_followSets (fits : G.WellFormed) (free : G.ContextFree)
    (disjoint : G.Disjoint) : G.FollowSound G.followSets := by
  rw [followSets_eq]
  refine stabilize_induction (P := G.FollowSound) (fun sets sound => ?_) _ fun symbol a mem => ?_
  · refine sweep_induction (P := G.FollowSound) (fun d mem sets sound symbol a member => ?_) sound
    obtain ⟨o, occurs, rfl⟩ := List.mem_map.mp mem
    rcases mem_extend.mp member with old | ⟨rfl, _, new⟩
    · exact sound symbol a old
    · exact sound.demand fits free disjoint occurs new
  · obtain ⟨rfl, rfl⟩ := (mem_followStart fits).mp mem
    exact Or.inl ⟨rfl, [], .refl⟩

/-- The set holds the terminals that come right after the symbol in derived words, the end marker if
the symbol can stand at the end, and nothing else. -/
structure IsFollow (G : Grammar) (symbol : Symbol) (follow : SortedSet Symbol) : Prop where
  terminal_iff : ∀ t ∈ G.terminals, t ∈ follow ↔ G.StandsBefore symbol t
  end_iff : Symbol.endOfInput ∈ follow ↔ G.CanEnd symbol
  nothing_else : ∀ a ∈ follow, a = Symbol.endOfInput ∨ a ∈ G.terminals

private theorem WellFormed.isFollow (fits : G.WellFormed) (free : G.ContextFree)
    (disjoint : G.Disjoint) (unmarked : Symbol.endOfInput ∉ G.terminals)
    (inside : symbol ∈ G.nonTerminals) :
    G.IsFollow symbol (G.followSets.of symbol) where
  terminal_iff t terminal := by
    have outside : t ∉ G.nonTerminals := fun known => disjoint t known terminal
    constructor
    · intro mem
      rcases fits.followSound_followSets free disjoint symbol t mem with ⟨rfl, _⟩ | ⟨_, stands⟩
      · exact absurd terminal unmarked
      · exact stands
    · rintro ⟨root, _, before, after, derivation⟩
      have begins : G.Begins t (t :: after) := Or.inl ((leads_iff_eq free outside).mpr rfl)
      exact fits.mem_followSets_of_derives free derivation inside (Or.inl begins)
  end_iff := by
    constructor
    · intro mem
      rcases fits.followSound_followSets free disjoint symbol _ mem with ⟨_, ends⟩ | ⟨terminal, _⟩
      · exact ends
      · exact absurd terminal unmarked
    · rintro ⟨before, derivation⟩
      refine fits.mem_followSets_of_derives free derivation inside (Or.inr ⟨?_, ?_⟩)
      · exact fun other mem => absurd mem List.not_mem_nil
      · exact fits.endOfInput_mem_followSets
  nothing_else a mem :=
    (fits.followSound_followSets free disjoint symbol a mem).imp And.left And.left

private theorem WellFormed.get?_followSets (fits : G.WellFormed)
    (inside : symbol ∈ G.nonTerminals) :
    G.followSets.get? symbol = some (G.followSets.of symbol) := by
  apply get?_eq_some_of
  rw [fits.confined_followSets.1]
  exact inside

theorem follows_eq (free : G.ContextFree) : G.follows = .ok G.followSets := by
  rw [follows, requireContextFree_iff.mpr free]
  rfl

/-- FOLLOW of a context-free grammar is what the derivations say, also of non-terminals that the
start symbol does not lead to. -/
theorem follows_exact (fits : G.WellFormed) (free : G.ContextFree) (disjoint : G.Disjoint)
    (unmarked : Symbol.endOfInput ∉ G.terminals) :
    ∃ sets, G.follows = .ok sets ∧
      ∀ A ∈ G.nonTerminals, ∃ follow, sets.get? A = some follow ∧ G.IsFollow A follow := by
  refine ⟨G.followSets, follows_eq free, fun A inside => ⟨_, fits.get?_followSets inside, ?_⟩⟩
  exact fits.isFollow free disjoint unmarked inside

/-- Nothing leads to `U`, and yet its production puts `b` behind `A`; `A` ends a word because `C`
vanishes. -/
theorem follows_exact_unreachable :
    ∃ G, ofProductions (OrderedSet.ofList ["S", "A", "C", "U"])
        (OrderedSet.ofList ["a", "b", "c"]) "S"
        [⟨["S"], ["A", "C"]⟩, ⟨["A"], ["a"]⟩, ⟨["C"], ["c", "C"]⟩, ⟨["C"], []⟩,
          ⟨["U"], ["A", "b"]⟩] = .ok G ∧
      G.WellFormed ∧ G.ContextFree ∧ G.Disjoint ∧ Symbol.endOfInput ∉ G.terminals ∧
      G.StandsBefore "A" "b" ∧ G.StandsBefore "A" "c" ∧ G.CanEnd "A" ∧
      ¬ G.StandsBefore "C" "c" := by
  obtain ⟨G, sets, built, free, disjoint, unmarked, A, C, b, c, computed, after, later, last,
      never⟩ :
      ∃ G sets, ofProductions (OrderedSet.ofList ["S", "A", "C", "U"])
          (OrderedSet.ofList ["a", "b", "c"]) "S"
          [⟨["S"], ["A", "C"]⟩, ⟨["A"], ["a"]⟩, ⟨["C"], ["c", "C"]⟩, ⟨["C"], []⟩,
            ⟨["U"], ["A", "b"]⟩] = .ok G ∧
        G.ContextFree ∧ G.Disjoint ∧ Symbol.endOfInput ∉ G.terminals ∧ "A" ∈ G.nonTerminals ∧
        "C" ∈ G.nonTerminals ∧ "b" ∈ G.terminals ∧ "c" ∈ G.terminals ∧ G.follows = .ok sets ∧
        "b" ∈ sets.of "A" ∧ "c" ∈ sets.of "A" ∧ Symbol.endOfInput ∈ sets.of "A" ∧
        "c" ∉ sets.of "C" :=
    ⟨_, _, rfl, by decide, by decide, by decide, by decide, by decide, by decide, by decide, rfl,
      by decide, by decide, by decide, by decide⟩
  have fits := wellFormed_of_ofProductions built
  obtain ⟨sets', computed', exact⟩ := follows_exact fits free disjoint unmarked
  obtain rfl : sets = sets' := Except.ok.inj (computed.symm.trans computed')
  obtain ⟨behind, found, ofA⟩ := exact "A" A
  obtain ⟨none, found', ofC⟩ := exact "C" C
  rw [SymbolSets.of, found] at after later last
  rw [SymbolSets.of, found'] at never
  exact ⟨G, built, fits, free, disjoint, unmarked, (ofA.terminal_iff "b" b).mp after,
    (ofA.terminal_iff "c" c).mp later, ofA.end_iff.mp last, mt (ofC.terminal_iff "c" c).mpr never⟩

end Follow

end LanguageTheory.Grammar

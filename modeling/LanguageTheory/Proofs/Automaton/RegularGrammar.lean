import LanguageTheory.Proofs.Grammar.RegularAutomaton

/-!
Grammars of deterministic automata. The states are given symbols that are different from each other
and from the terminals (`Naming`), so the productions can be read back as moves (`FollowsMoves`). A
state then derives what it accepts, except for the empty word, which only the start symbol derives;
that suffices, because a move into an accepting state has a production of its own that ends there.
The start symbol is that of the entry, or a new one when the entry accepts and is entered again
(`CanStart`).
-/

set_option autoImplicit false
set_option relaxedAutoImplicit false

namespace LanguageTheory.Automaton

variable {A : Automaton}

section Naming

variable {terminals : Alphabet} {names : List StateName} {assigned : List (StateName × Symbol)}

/-- The symbols given to names are pairwise different and neither terminals nor `ε`. None of them is
the name of another state, so a name that comes later can still be kept. -/
structure Naming (terminals : Alphabet) (names : List StateName)
    (assigned : List (StateName × Symbol)) : Prop where
  distinct : (assigned.map Prod.snd).Nodup
  usable : ∀ e ∈ assigned, e.2 ∉ terminals ∧ e.2 ≠ Symbol.epsilon
  kept : ∀ e ∈ assigned, e.2 ∈ names → e.1 = e.2

private theorem Naming.add (naming : Naming terminals names assigned) {name : StateName}
    {symbol : Symbol} (new : symbol ∉ assigned.map Prod.snd) (foreign : symbol ∉ terminals)
    (visible : symbol ≠ Symbol.epsilon) (own : symbol ∈ names → name = symbol) :
    Naming terminals names (assigned ++ [(name, symbol)]) := by
  constructor
  · rw [List.map_append, List.nodup_append]
    refine ⟨naming.distinct, List.nodup_singleton _, ?_⟩
    rintro old mem _ last rfl
    rw [List.mem_singleton.mp last] at mem
    exact new mem
  · exact List.forall_mem_append.mpr
      ⟨naming.usable, List.forall_mem_singleton.mpr ⟨foreign, visible⟩⟩
  · exact List.forall_mem_append.mpr ⟨naming.kept, List.forall_mem_singleton.mpr own⟩

private theorem naming_assignSymbols {supply : StateNameSupply} {rest : List StateName}
    (stem : supply.stem = StateNameSupply.defaultStem) (naming : Naming terminals names assigned)
    (known : ∀ name ∈ rest, name ∈ names) (distinct : (assigned.map Prod.fst ++ rest).Nodup) :
    Naming terminals names (assignSymbols terminals names supply assigned rest) ∧
      (assignSymbols terminals names supply assigned rest).map Prod.fst =
        assigned.map Prod.fst ++ rest := by
  induction rest generalizing supply assigned with
  | nil => exact ⟨naming, (List.append_nil _).symm⟩
  | cons name rest ih =>
    obtain ⟨here, later⟩ := List.forall_mem_cons.mp known
    have shift (symbol : Symbol) : (assigned ++ [(name, symbol)]).map Prod.fst ++ rest =
        assigned.map Prod.fst ++ name :: rest := by simp
    unfold assignSymbols
    split
    · let taken := terminals.toList ++ names ++ assigned.map Prod.snd
      have new : (supply.nextFree taken).1 ∉ taken := supply.nextFree_not_mem taken
      simp only [taken, List.mem_append, not_or] at new
      obtain ⟨⟨foreign, unnamed⟩, unused⟩ := new
      have step : Naming terminals names (assigned ++ [(name, (supply.nextFree taken).1)]) :=
        naming.add unused foreign (StateNameSupply.nextFree_ne_epsilon stem taken)
          fun named => absurd named unnamed
      have stem' : (supply.nextFree taken).2.stem = StateNameSupply.defaultStem := stem
      have result := ih stem' step later (shift _ ▸ distinct)
      exact ⟨result.1, result.2.trans (shift _)⟩
    · rename_i free
      have unused : name ∉ assigned.map Prod.snd := by
        intro given
        obtain ⟨e, mem, rfl⟩ := List.mem_map.mp given
        have same := naming.kept e mem here
        refine (List.nodup_append.mp distinct).2.2 e.1 (List.mem_map_of_mem mem) e.2 ?_ same
        exact List.mem_cons_self
      have step : Naming terminals names (assigned ++ [(name, name)]) :=
        naming.add unused (fun terminal => free (Or.inl terminal))
          (fun silent => free (Or.inr silent)) fun _ => rfl
      have result := ih stem step later (shift name ▸ distinct)
      exact ⟨result.1, result.2.trans (shift name)⟩

def stateSymbols (A : Automaton) : List (StateName × Symbol) :=
  assignSymbols A.alphabet.visible A.stateNames
    (StateNameSupply.ofStem StateNameSupply.defaultStem) [] A.stateNames

def symbolOf (A : Automaton) (name : StateName) : Symbol :=
  (OrderedTable.lookUp name A.stateSymbols).getD name

private theorem naming_stateSymbols (A : Automaton) :
    Naming A.alphabet.visible A.stateNames A.stateSymbols ∧
      A.stateSymbols.map Prod.fst = A.stateNames := by
  refine naming_assignSymbols rfl ⟨List.nodup_nil, ?_, ?_⟩ (fun _ mem => mem) A.states.nodup
  · exact fun e mem => absurd mem List.not_mem_nil
  · exact fun e mem => absurd mem List.not_mem_nil

private theorem mem_stateSymbols {name : StateName} {symbol : Symbol} :
    (name, symbol) ∈ A.stateSymbols ↔ name ∈ A.stateNames ∧ A.symbolOf name = symbol := by
  have names := A.naming_stateSymbols.2
  have distinct : (A.stateSymbols.map Prod.fst).Nodup := names ▸ A.states.nodup
  constructor
  · intro mem
    refine ⟨names ▸ List.mem_map_of_mem mem, ?_⟩
    rw [symbolOf, OrderedTable.lookUp_of_mem distinct mem, Option.getD_some]
  · rintro ⟨known, rfl⟩
    obtain ⟨e, mem, rfl⟩ := List.mem_map.mp (names ▸ known)
    rwa [symbolOf, OrderedTable.lookUp_of_mem distinct mem]

private theorem symbolOf_injOn {name other : StateName} (known : name ∈ A.stateNames)
    (known' : other ∈ A.stateNames) (same : A.symbolOf name = A.symbolOf other) : name = other := by
  have entries := List.inj_on_of_nodup_map A.naming_stateSymbols.1.distinct
    (mem_stateSymbols.mpr ⟨known, rfl⟩) (mem_stateSymbols.mpr ⟨known', rfl⟩) same
  exact congrArg Prod.fst entries

private theorem symbolOf_usable {name : StateName} (known : name ∈ A.stateNames) :
    A.symbolOf name ∉ A.alphabet.visible ∧ A.symbolOf name ≠ Symbol.epsilon :=
  A.naming_stateSymbols.1.usable _ (mem_stateSymbols.mpr ⟨known, rfl⟩)

def symbols (A : Automaton) : Alphabet := OrderedSet.ofList (A.stateSymbols.map Prod.snd)

private theorem mem_symbols {symbol : Symbol} :
    symbol ∈ A.symbols ↔ ∃ name ∈ A.stateNames, A.symbolOf name = symbol := by
  simp [symbols, mem_stateSymbols]

end Naming

section Moves

/-- The bodies that the moves from a state give: one to go on and, if the target accepts, one to
end. -/
inductive MoveBody (A : Automaton) (source : StateName) : Word → Prop
  | next {label : Symbol} {target : StateName} (move : A.Moves source label target) :
      MoveBody A source [label, A.symbolOf target]
  | last {label : Symbol} {target : StateName} (move : A.Moves source label target)
      (accepting : A.isExit target = true) : MoveBody A source [label]

def moveProductions (A : Automaton) : List Production :=
  A.transitions.toList.flatMap (A.transitionProductions A.symbolOf)

private theorem mem_moveProductions {p : Production} : p ∈ A.moveProductions ↔
    ∃ source body, A.MoveBody source body ∧ p = ⟨[A.symbolOf source], body⟩ := by
  rw [moveProductions, List.mem_flatMap]
  constructor
  · rintro ⟨t, mem, made⟩
    rcases List.mem_cons.mp made with rfl | ending
    · exact ⟨t.source, _, .next ⟨t, mem, rfl, rfl, rfl⟩, rfl⟩
    · split at ending
      · rename_i accepting
        obtain rfl := List.mem_singleton.mp ending
        exact ⟨t.source, _, .last ⟨t, mem, rfl, rfl, rfl⟩ accepting, rfl⟩
      · exact absurd ending List.not_mem_nil
  · rintro ⟨source, body, made, rfl⟩
    cases made with
    | next move =>
      obtain ⟨t, mem, rfl, rfl, rfl⟩ := move
      exact ⟨t, mem, List.mem_cons_self⟩
    | last move accepting =>
      obtain ⟨t, mem, rfl, rfl, rfl⟩ := move
      refine ⟨t, mem, List.mem_cons_of_mem _ ?_⟩
      rw [if_pos accepting]
      exact List.mem_singleton_self _

def StartBody (A : Automaton) (body : Word) : Prop :=
  A.MoveBody A.entry body ∨ body = [] ∧ A.isExit A.entry = true

/-- The symbol can begin the derivations: it is no terminal, it is the symbol of the entry or of no
state, and if the entry accepts, no state with this symbol is entered. -/
structure CanStart (A : Automaton) (start : Symbol) : Prop where
  foreign : start ∉ A.alphabet.visible
  entry : ∀ name ∈ A.stateNames, A.symbolOf name = start → name = A.entry
  unused : A.isExit A.entry = true → ∀ source label target, A.Moves source label target →
    A.symbolOf target ≠ start

/-- The bodies of a head in the grammar with a given start symbol. -/
def BodyOf (A : Automaton) (start head : Symbol) (body : Word) : Prop :=
  (∃ source, head = A.symbolOf source ∧ A.MoveBody source body) ∨ head = start ∧ A.StartBody body

/-- The grammar goes where the automaton moves. -/
structure FollowsMoves (A : Automaton) (G : Grammar) : Prop where
  terminals : G.terminals = A.alphabet.visible
  nonTerminals : ∀ symbol, symbol ∈ G.nonTerminals ↔ symbol = G.start ∨ symbol ∈ A.symbols
  start : A.CanStart G.start
  free : G.ContextFree
  productions : ∀ head body, (head, body) ∈ G.table.productions ↔ A.BodyOf G.start head body

end Moves

section Words

variable {G : Grammar} {name : StateName} {symbol : Symbol} {body : Word}

private theorem MoveBody.source_mem (fits : A.WellFormed) (made : A.MoveBody name body) :
    name ∈ A.stateNames := by
  cases made with
  | next move => exact (fits.moves_mem move).1
  | last move _ => exact (fits.moves_mem move).1

private theorem WellFormed.symbolOf_mem (fits : A.WellFormed) {source target : StateName}
    {label : Symbol} (move : A.Moves source label target) : A.symbolOf target ∈ A.symbols :=
  mem_symbols.mpr ⟨target, (fits.moves_mem move).2, rfl⟩

private theorem MoveBody.symbol_mem (made : A.MoveBody name body) (fits : A.WellFormed)
    (det : A.Deterministic) :
    ∀ symbol ∈ body, symbol ∈ A.alphabet.visible ∨ symbol ∈ A.symbols := by
  cases made with
  | next move =>
    refine List.forall_mem_cons.mpr ⟨Or.inl (det.label_mem fits move), ?_⟩
    exact List.forall_mem_singleton.mpr (Or.inr (fits.symbolOf_mem move))
  | last move _ => exact List.forall_mem_singleton.mpr (Or.inl (det.label_mem fits move))

private theorem moveBody_pair_iff {label : Symbol} : A.MoveBody name [label, symbol] ↔
    ∃ target, A.Moves name label target ∧ symbol = A.symbolOf target := by
  constructor
  · intro made
    cases made with
    | next move => exact ⟨_, move, rfl⟩
  · rintro ⟨target, move, rfl⟩
    exact .next move

private theorem moveBody_single_iff {label : Symbol} : A.MoveBody name [label] ↔
    ∃ target, A.Moves name label target ∧ A.isExit target = true := by
  constructor
  · intro made
    cases made with
    | last move accepting => exact ⟨_, move, accepting⟩
  · rintro ⟨target, move, accepting⟩
    exact .last move accepting

private theorem startBody_nil_iff : A.StartBody [] ↔ A.isExit A.entry = true := by
  constructor
  · rintro (made | ⟨_, accepting⟩)
    · cases made
    · exact accepting
  · exact fun accepting => Or.inr ⟨rfl, accepting⟩

private theorem FollowsMoves.disjoint (follows : A.FollowsMoves G) : G.Disjoint := by
  intro symbol known terminal
  rw [follows.terminals] at terminal
  rcases (follows.nonTerminals symbol).mp known with rfl | named
  · exact follows.start.foreign terminal
  · obtain ⟨name, member, rfl⟩ := mem_symbols.mp named
    exact (symbolOf_usable member).1 terminal

private theorem FollowsMoves.production_nil_iff (follows : A.FollowsMoves G) :
    (symbol, []) ∈ G.table.productions ↔ symbol = G.start ∧ A.isExit A.entry = true := by
  rw [follows.productions, BodyOf, startBody_nil_iff]
  refine or_iff_right ?_
  rintro ⟨source, _, made⟩
  cases made

private theorem FollowsMoves.start_not_mem (follows : A.FollowsMoves G) (fits : A.WellFormed)
    (det : A.Deterministic) (accepting : A.isExit A.entry = true) (made : A.MoveBody name body) :
    G.start ∉ body := by
  have apart {label : Symbol} {target : StateName} (move : A.Moves name label target) :
      G.start ≠ label := by
    rintro rfl
    exact follows.start.foreign (det.label_mem fits move)
  cases made with
  | @next label target move =>
    have unused := follows.start.unused accepting name label target move
    simp [apart move, unused.symm]
  | last move _ => simp [apart move]

private theorem FollowsMoves.regular (follows : A.FollowsMoves G) (fits : A.WellFormed)
    (det : A.Deterministic) : G.Regular := by
  have moveForm {source : StateName} {head : Symbol} {body : Word} (made : A.MoveBody source body) :
      G.RegularBody head body := by
    cases made with
    | next move =>
      have known := (follows.nonTerminals _).mpr (Or.inr (fits.symbolOf_mem move))
      exact .next (follows.terminals ▸ det.label_mem fits move) known
    | last move _ => exact .last (follows.terminals ▸ det.label_mem fits move)
  refine ⟨follows.free, fun head body mem => ?_⟩
  rcases (follows.productions head body).mp mem with ⟨_, _, made⟩ | ⟨rfl, made | ⟨rfl, accepting⟩⟩
  · exact moveForm made
  · exact moveForm made
  · refine .empty ⟨rfl, ?_⟩
    rintro ⟨p, member, inside⟩
    obtain ⟨other, _, _, production⟩ := follows.free.exists_head member
    rcases (follows.productions other p.body).mp production with
      ⟨_, _, made⟩ | ⟨_, made | ⟨empty, _⟩⟩
    · exact follows.start_not_mem fits det accepting made inside
    · exact follows.start_not_mem fits det accepting made inside
    · rw [empty] at inside
      exact absurd inside List.not_mem_nil

/-- The symbol of a state, and besides it the start symbol for the entry. -/
def IsSymbolOf (A : Automaton) (G : Grammar) (symbol : Symbol) (name : StateName) : Prop :=
  name ∈ A.stateNames ∧ (symbol = A.symbolOf name ∨ symbol = G.start ∧ name = A.entry)

private theorem FollowsMoves.nonTerminal_mem (follows : A.FollowsMoves G)
    (stands : A.IsSymbolOf G symbol name) : symbol ∈ G.nonTerminals := by
  obtain ⟨known, rfl | ⟨rfl, _⟩⟩ := stands
  · exact (follows.nonTerminals _).mpr (Or.inr (mem_symbols.mpr ⟨name, known, rfl⟩))
  · exact (follows.nonTerminals _).mpr (Or.inl rfl)

private theorem FollowsMoves.production_iff (follows : A.FollowsMoves G) (fits : A.WellFormed)
    (stands : A.IsSymbolOf G symbol name) (filled : body ≠ []) :
    (symbol, body) ∈ G.table.productions ↔ A.MoveBody name body := by
  obtain ⟨known, origin⟩ := stands
  rw [follows.productions]
  constructor
  · rintro (⟨source, same, made⟩ | ⟨same, made | ⟨empty, _⟩⟩)
    · have member := made.source_mem fits
      rcases origin with own | ⟨isStart, isEntry⟩
      · obtain rfl := symbolOf_injOn known member (own.symm.trans same)
        exact made
      · obtain rfl := follows.start.entry source member (same.symm.trans isStart)
        exact isEntry ▸ made
    · rcases origin with own | ⟨_, isEntry⟩
      · exact follows.start.entry name known (own.symm.trans same) ▸ made
      · exact isEntry ▸ made
    · exact absurd empty filled
  · intro made
    rcases origin with own | ⟨isStart, isEntry⟩
    · exact Or.inl ⟨name, own, made⟩
    · exact Or.inr ⟨isStart, Or.inl (isEntry ▸ made)⟩

/-- The last symbol is read by a production without a non-terminal: going on and then deriving
nothing would take an empty body of a start symbol that is in no body. -/
private theorem FollowsMoves.derivesWord_iff (follows : A.FollowsMoves G) (fits : A.WellFormed)
    (det : A.Deterministic) (stands : A.IsSymbolOf G symbol name) {a : Symbol} {rest : Word} :
    G.DerivesWord symbol (a :: rest) ↔ A.AcceptsFrom name (a :: rest) := by
  have regular := follows.regular fits det
  induction rest generalizing symbol name a with
  | nil =>
    rw [regular.derivesWord_cons follows.disjoint (follows.nonTerminal_mem stands),
      follows.production_iff fits stands (List.cons_ne_nil a []), moveBody_single_iff,
      det.acceptsFrom_cons]
    simp only [det.acceptsFrom_nil, true_and]
    refine or_iff_left ?_
    rintro ⟨B, member, derived⟩
    have made := (follows.production_iff fits stands (List.cons_ne_nil a [B])).mp member
    obtain ⟨target, move, rfl⟩ := moveBody_pair_iff.mp made
    have known := (follows.nonTerminals _).mpr (Or.inr (fits.symbolOf_mem move))
    have erases := (regular.derivesWord_nil follows.disjoint known).mp derived
    obtain ⟨same, accepting⟩ := follows.production_nil_iff.mp erases
    exact follows.start.unused accepting name a target move same
  | cons b rest ih =>
    rw [regular.derivesWord_cons follows.disjoint (follows.nonTerminal_mem stands),
      det.acceptsFrom_cons]
    have later {target : StateName} (move : A.Moves name a target) :
        A.IsSymbolOf G (A.symbolOf target) target := ⟨(fits.moves_mem move).2, Or.inl rfl⟩
    constructor
    · rintro (⟨none, _⟩ | ⟨B, member, derived⟩)
      · cases none
      · have made := (follows.production_iff fits stands (List.cons_ne_nil a [B])).mp member
        obtain ⟨target, move, rfl⟩ := moveBody_pair_iff.mp made
        exact ⟨target, move, (ih (later move)).mp derived⟩
    · rintro ⟨target, move, accepted⟩
      refine Or.inr ⟨A.symbolOf target, ?_, (ih (later move)).mpr accepted⟩
      exact (follows.production_iff fits stands (List.cons_ne_nil a _)).mpr (.next move)

private theorem FollowsMoves.generates_iff (follows : A.FollowsMoves G) (fits : A.WellFormed)
    (det : A.Deterministic) {word : Word} : G.Generates word ↔ A.accepts word = true := by
  rw [det.accepts_iff]
  have stands : A.IsSymbolOf G G.start A.entry := ⟨fits.entry_mem, Or.inr ⟨rfl, rfl⟩⟩
  cases word with
  | nil =>
    have known := follows.nonTerminal_mem stands
    rw [det.acceptsFrom_nil]
    refine ((follows.regular fits det).derivesWord_nil follows.disjoint known).trans ?_
    rw [follows.production_nil_iff]
    exact and_iff_right rfl
  | cons a rest => exact follows.derivesWord_iff fits det stands

end Words

section Construction

variable {start head : Symbol} {body : Word}

private theorem BodyOf.head_cases (made : A.BodyOf start head body) (fits : A.WellFormed) :
    head = start ∨ head ∈ A.symbols := by
  rcases made with ⟨source, rfl, made⟩ | ⟨same, _⟩
  · exact Or.inr (mem_symbols.mpr ⟨source, made.source_mem fits, rfl⟩)
  · exact Or.inl same

private theorem BodyOf.symbol_mem (made : A.BodyOf start head body) (fits : A.WellFormed)
    (det : A.Deterministic) :
    ∀ symbol ∈ body, symbol ∈ A.alphabet.visible ∨ symbol ∈ A.symbols := by
  rcases made with ⟨_, _, made⟩ | ⟨_, made | ⟨rfl, _⟩⟩
  · exact made.symbol_mem fits det
  · exact made.symbol_mem fits det
  · exact fun symbol inside => absurd inside List.not_mem_nil

private theorem BodyOf.visible (made : A.BodyOf start head body) (fits : A.WellFormed)
    (det : A.Deterministic) : Grammar.withoutEpsilon body = body := by
  refine List.filter_eq_self.mpr fun symbol inside => decide_eq_true ?_
  rcases made.symbol_mem fits det symbol inside with letter | named
  · exact (Alphabet.mem_visible.mp letter).2
  · obtain ⟨name, known, rfl⟩ := mem_symbols.mp named
    exact (symbolOf_usable known).2

private theorem exists_ofProductions (fits : A.WellFormed) (det : A.Deterministic)
    (canStart : A.CanStart start) {nonTerminals : Alphabet} {given : List Production}
    (symbols : ∀ symbol, symbol ∈ nonTerminals ↔ symbol = start ∨ symbol ∈ A.symbols)
    (productions : ∀ p, p ∈ given ↔ ∃ head body, A.BodyOf start head body ∧ p = ⟨[head], body⟩) :
    ∃ G, Grammar.ofProductions nonTerminals A.alphabet.visible start given = .ok G ∧
      G.WellFormed ∧ A.FollowsMoves G := by
  have heads (p : Production) (mem : p ∈ given) : p.head ≠ [] := by
    obtain ⟨head, body, _, rfl⟩ := (productions p).mp mem
    exact List.cons_ne_nil head []
  have declared (p : Production) (mem : p ∈ given) :
      ∀ symbol ∈ p.head ++ Grammar.withoutEpsilon p.body,
        symbol ∈ nonTerminals ∨ symbol ∈ A.alphabet.visible := by
    obtain ⟨head, body, made, rfl⟩ := (productions p).mp mem
    rw [made.visible fits det, List.singleton_append]
    refine List.forall_mem_cons.mpr ⟨Or.inl ((symbols head).mpr (made.head_cases fits)), ?_⟩
    intro symbol inside
    rcases made.symbol_mem fits det symbol inside with letter | named
    · exact Or.inr letter
    · exact Or.inl ((symbols symbol).mpr (Or.inr named))
  obtain ⟨rules, built, keys, members⟩ :=
    Grammar.ofProductions_eq_ok ((symbols start).mpr (Or.inl rfl)) heads declared
  refine ⟨_, built, Grammar.wellFormed_of_ofProductions built, rfl, symbols, canStart, ?_, ?_⟩
  · intro head mem
    obtain ⟨p, member, rfl⟩ := (keys head).mp mem
    obtain ⟨head, body, made, rfl⟩ := (productions p).mp member
    exact ⟨head, (symbols head).mpr (made.head_cases fits), rfl⟩
  · intro head body
    rw [Grammar.mem_table_iff, members]
    constructor
    · rintro ⟨q, mem, same⟩
      obtain ⟨head', body', made, rfl⟩ := (productions q).mp mem
      rw [made.visible fits det] at same
      obtain ⟨rfl, rfl⟩ : head = head' ∧ body = body' := by simpa using same
      exact made
    · intro made
      exact ⟨⟨[head], body⟩, (productions _).mpr ⟨head, body, made, rfl⟩, by
        rw [made.visible fits det]⟩

private theorem canStart_entry (fits : A.WellFormed)
    (never : A.isExit A.entry = true → ∀ t ∈ A.transitions, t.target ≠ A.entry) :
    A.CanStart (A.symbolOf A.entry) := by
  refine ⟨(symbolOf_usable fits.entry_mem).1,
    fun name known => symbolOf_injOn known fits.entry_mem, ?_⟩
  rintro accepting source label target ⟨t, mem, rfl, rfl, rfl⟩ same
  exact never accepting t mem (symbolOf_injOn (fits.target_mem t mem) fits.entry_mem same)

private theorem canStart_of_new (fits : A.WellFormed) (foreign : start ∉ A.alphabet.visible)
    (new : start ∉ A.symbols) : A.CanStart start := by
  refine ⟨foreign, fun name known same => ?_, fun _ source label target move same => ?_⟩
  · exact absurd (mem_symbols.mpr ⟨name, known, same⟩) new
  · exact absurd (mem_symbols.mpr ⟨target, (fits.moves_mem move).2, same⟩) new

private theorem mem_moveProductions_append {more : List Production}
    (sound : ∀ p ∈ more, ∃ body, A.StartBody body ∧ p = ⟨[start], body⟩)
    (complete : ∀ body, A.StartBody body → ⟨[start], body⟩ ∈ A.moveProductions ++ more)
    (p : Production) : p ∈ A.moveProductions ++ more ↔
      ∃ head body, A.BodyOf start head body ∧ p = ⟨[head], body⟩ := by
  constructor
  · intro mem
    rcases List.mem_append.mp mem with moved | added
    · obtain ⟨source, body, made, rfl⟩ := mem_moveProductions.mp moved
      exact ⟨_, body, Or.inl ⟨source, rfl, made⟩, rfl⟩
    · obtain ⟨body, made, rfl⟩ := sound p added
      exact ⟨start, body, Or.inr ⟨rfl, made⟩, rfl⟩
  · rintro ⟨_, body, ⟨source, rfl, made⟩ | ⟨rfl, made⟩, rfl⟩
    · exact List.mem_append_left _ (mem_moveProductions.mpr ⟨source, body, made, rfl⟩)
    · exact complete body made

private theorem toGrammar_eq (det : A.Deterministic) : A.toGrammar =
    if A.isExit A.entry then
      if A.transitions.toList.any fun t => decide (t.target = A.entry) then
        let start := (SymbolPool.avoiding (A.symbols.toList ++ A.alphabet.visible.toList)).fresh.1
        let entryBodies := (A.moveProductions.filter fun p =>
          decide (p.head = [A.symbolOf A.entry])).map Production.body
        Grammar.ofProductions (A.symbols.insert start) A.alphabet.visible start
          (A.moveProductions ++ (entryBodies ++ [[]]).map fun body => ⟨[start], body⟩)
      else
        Grammar.ofProductions A.symbols A.alphabet.visible (A.symbolOf A.entry)
          (A.moveProductions ++ [⟨[A.symbolOf A.entry], []⟩])
    else Grammar.ofProductions A.symbols A.alphabet.visible
        (A.symbolOf A.entry) A.moveProductions := by
  rw [toGrammar, requireDeterministic, if_pos det]
  rfl

private theorem mem_entryBodies (fits : A.WellFormed) {body : Word} :
    body ∈ (A.moveProductions.filter fun p => decide (p.head = [A.symbolOf A.entry])).map
      Production.body ↔ A.MoveBody A.entry body := by
  simp only [List.mem_map, List.mem_filter, mem_moveProductions, decide_eq_true_eq]
  constructor
  · rintro ⟨_, ⟨⟨source, body, made, rfl⟩, head⟩, rfl⟩
    have same := symbolOf_injOn (made.source_mem fits) fits.entry_mem (List.cons.inj head).1
    exact same ▸ made
  · exact fun made => ⟨_, ⟨⟨A.entry, body, made, rfl⟩, rfl⟩, rfl⟩

private theorem exists_toGrammar (fits : A.WellFormed) (det : A.Deterministic) :
    ∃ G, A.toGrammar = .ok G ∧ G.WellFormed ∧ A.FollowsMoves G := by
  have symbols (symbol : Symbol) :
      symbol ∈ A.symbols ↔ symbol = A.symbolOf A.entry ∨ symbol ∈ A.symbols := by
    refine (or_iff_right_of_imp ?_).symm
    rintro rfl
    exact mem_symbols.mpr ⟨A.entry, fits.entry_mem, rfl⟩
  have moved {body : Word} (more : List Production) (made : A.MoveBody A.entry body) :
      ⟨[A.symbolOf A.entry], body⟩ ∈ A.moveProductions ++ more :=
    List.mem_append_left _ (mem_moveProductions.mpr ⟨A.entry, body, made, rfl⟩)
  rw [toGrammar_eq det]
  by_cases accepting : A.isExit A.entry = true
  · rw [if_pos accepting]
    split
    · let pool := SymbolPool.avoiding (A.symbols.toList ++ A.alphabet.visible.toList)
      have new : pool.fresh.1 ∉ A.symbols.toList ++ A.alphabet.visible.toList := pool.fresh_not_mem
      rw [List.mem_append, not_or] at new
      have bodies (body : Word) : body ∈ (A.moveProductions.filter fun p =>
          decide (p.head = [A.symbolOf A.entry])).map Production.body ++ [[]] ↔
            A.StartBody body := by
        rw [List.mem_append, List.mem_singleton, mem_entryBodies fits, StartBody,
          and_iff_left accepting]
      refine exists_ofProductions fits det (canStart_of_new fits new.2 new.1) (fun symbol => ?_)
        (mem_moveProductions_append (fun p added => ?_) fun body made => ?_)
      · rw [OrderedSet.mem_insert, or_comm]
      · obtain ⟨body, mem, rfl⟩ := List.mem_map.mp added
        exact ⟨body, (bodies body).mp mem, rfl⟩
      · exact List.mem_append_right _ (List.mem_map_of_mem ((bodies body).mpr made))
    · rename_i never
      have never (t : Transition) (mem : t ∈ A.transitions) : t.target ≠ A.entry := fun same =>
        never (List.any_eq_true.mpr ⟨t, mem, decide_eq_true same⟩)
      refine exists_ofProductions fits det (canStart_entry fits fun _ => never) symbols
        (mem_moveProductions_append (fun p added => ?_) fun body made => ?_)
      · exact ⟨[], startBody_nil_iff.mpr accepting, List.mem_singleton.mp added⟩
      · rcases made with made | ⟨rfl, _⟩
        · exact moved _ made
        · exact List.mem_append_right _ (List.mem_singleton_self _)
  · rw [if_neg accepting, ← List.append_nil A.moveProductions]
    refine exists_ofProductions fits det
      (canStart_entry fits fun accepts => absurd accepts accepting) symbols
      (mem_moveProductions_append (fun p added => absurd added List.not_mem_nil)
        fun body made => ?_)
    rcases made with made | ⟨_, accepts⟩
    · exact moved [] made
    · exact absurd accepts accepting

/-- A deterministic automaton has a regular grammar that generates the accepted words, and so the
automaton of that grammar accepts them again. -/
theorem toGrammar_exact {states : List State} {alphabet : Alphabet} {transitions : List Transition}
    (built : ofParts states alphabet transitions = .ok A) (det : A.Deterministic) :
    ∃ G, A.toGrammar = .ok G ∧ G.WellFormed ∧ G.Disjoint ∧ G.rank = .regular ∧
      (∀ word, G.Generates word ↔ A.accepts word = true) ∧
      ∃ B, G.toAutomaton = .ok B ∧ ∀ word, B.accepts word = A.accepts word := by
  have fits := wellFormed_of_ofParts built
  obtain ⟨G, made, fits', follows⟩ := exists_toGrammar fits det
  have regular := follows.regular fits det
  have words (word : Word) : G.Generates word ↔ A.accepts word = true :=
    follows.generates_iff fits det
  refine ⟨G, made, fits', follows.disjoint, Grammar.rank_eq_regular_iff.mpr regular, words,
    G.ruleAutomaton, Grammar.toAutomaton_eq_ok fits' regular, fun word => ?_⟩
  rw [Bool.eq_iff_iff, ← words]
  exact Grammar.accepts_ruleAutomaton_iff fits' regular follows.disjoint

/-- States are named like a terminal, like `ε` and like the first new non-terminal, and the
accepting entry is entered again. -/
theorem toGrammar_exact_renamed_states :
    let built := ofParts [⟨"a", ⟨true, true⟩⟩, ⟨"ε", ⟨false, false⟩⟩, ⟨"q0", ⟨false, true⟩⟩]
      (OrderedSet.ofList ["a", "ε", "b"])
      [.plain "a" "a" "ε", .plain "ε" "b" "a", .plain "ε" "a" "q0"]
    ∃ A G, built = .ok A ∧ A.Deterministic ∧ A.toGrammar = .ok G ∧
      G.nonTerminals.toList = ["q1", "q2", "q0", "Δ"] ∧ G.Disjoint ∧ G.rank = .regular ∧
      G.Generates [] ∧ G.Generates ["a", "b", "a", "a"] ∧ ¬ G.Generates ["a"] := by
  intro built
  obtain ⟨A, G, accepted, det, made, names, words⟩ : ∃ A G, built = .ok A ∧ A.Deterministic ∧
      A.toGrammar = .ok G ∧ G.nonTerminals.toList = ["q1", "q2", "q0", "Δ"] ∧ A.accepts [] = true ∧
      A.accepts ["a", "b", "a", "a"] = true ∧ A.accepts ["a"] = false :=
    ⟨_, _, rfl, by decide, rfl, by decide, by decide, by decide, by decide⟩
  obtain ⟨H, made', _, disjoint, regular, generated, _⟩ := toGrammar_exact accepted det
  obtain rfl := Except.ok.inj (made.symm.trans made')
  refine ⟨A, G, accepted, det, made, names, disjoint, regular, ?_⟩
  simp [generated, words]

end Construction

end LanguageTheory.Automaton

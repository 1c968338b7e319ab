import LanguageTheory.Grammar.Reader
import LanguageTheory.Proofs.Grammar.Construction

/-!
The grammar that productions show. The order of the productions decides nothing but the start
symbol, and that stands in the first head with a non-terminal; so the productions of the grammar, in
which those of one head are brought together, show the same grammar again (`exists_same_of_shown`).
-/

set_option autoImplicit false
set_option relaxedAutoImplicit false

namespace LanguageTheory

namespace Rules

private theorem mem_productions_foldl_add {rules : Rules} {given : List Production}
    {p : Production} :
    p ∈ (given.foldl Rules.add rules).productions ↔ p ∈ rules.productions ∨ p ∈ given := by
  induction given generalizing rules with
  | nil => simp
  | cons q given ih => rw [List.foldl_cons, ih, mem_productions_add, List.mem_cons, or_assoc]

theorem findSome?_keys_foldl_add {find : Word → Option Symbol} {rules : Rules}
    {given : List Production} :
    (given.foldl Rules.add rules).keys.findSome? find =
      (rules.keys ++ given.map Production.head).findSome? find := by
  induction given generalizing rules with
  | nil => simp
  | cons p given ih =>
    rw [List.foldl_cons, ih, List.map_cons]
    by_cases known : p.head ∈ rules.keys
    · have same : (rules.add p).keys = rules.keys := OrderedTable.keys_insert_of_mem known
      rw [same, List.findSome?_append, List.findSome?_append, List.findSome?_cons]
      cases found : rules.keys.findSome? find with
      | some symbol => rfl
      | none => rw [List.findSome?_eq_none_iff.mp found _ known]
    · have grown : (rules.add p).keys = rules.keys ++ [p.head] :=
        OrderedTable.keys_insert_of_not_mem known
      rw [grown, List.append_assoc, List.singleton_append]

end Rules

namespace Grammar

section Shown

variable {productions : List Production} {symbol : Symbol} {G : Grammar}

theorem mem_shownNonTerminals : symbol ∈ shownNonTerminals productions ↔
    (∃ p ∈ productions, symbol ∈ p.head) ∧
      ((∃ p ∈ productions, p.head = [symbol]) ∨ looksLikeNonTerminal symbol = true) := by
  rw [shownNonTerminals, OrderedSet.mem_ofList, List.mem_filter, Bool.or_eq_true, decide_eq_true_eq]
  simp only [List.mem_flatten, List.mem_map, exists_exists_and_eq_and]

theorem mem_otherSymbols {nonTerminals : Alphabet} :
    symbol ∈ otherSymbols nonTerminals productions ↔
      (∃ p ∈ productions, symbol ∈ p.body ++ p.head) ∧ symbol ∉ nonTerminals := by
  rw [otherSymbols, OrderedSet.mem_ofList, List.mem_filter, decide_eq_true_eq, List.mem_flatMap]

theorem head?_shownNonTerminals (productions : List Production) :
    (shownNonTerminals productions).toList.head? =
      (productions.map Production.head).findSome? (List.find? fun symbol =>
        decide ([symbol] ∈ productions.map Production.head) || looksLikeNonTerminal symbol) := by
  rw [shownNonTerminals, OrderedSet.ofList, OrderedSet.head?_insertMany, ← List.find?_flatten,
    ← List.head?_filter]
  rfl

theorem parts_of_shown (shown : ofShownProductions productions = .ok G) :
    productions ≠ [] ∧ (shownNonTerminals productions).toList.head? = some G.start ∧
      ofProductions (shownNonTerminals productions)
        (otherSymbols (shownNonTerminals productions) productions) G.start productions = .ok G := by
  unfold ofShownProductions at shown
  split at shown
  · cases shown
  · rename_i filled
    dsimp only at shown
    split at shown
    · cases shown
    · rename_i start rest listed
      have same : G.start = start := congrArg Grammar.start (parts_of_ofProductions shown)
      rw [listed, same]
      exact ⟨fun empty => filled (List.isEmpty_iff.mpr empty), rfl, shown⟩

theorem shown_of_head? {start : Symbol} (filled : productions ≠ [])
    (first : (shownNonTerminals productions).toList.head? = some start) :
    ofShownProductions productions = ofProductions (shownNonTerminals productions)
      (otherSymbols (shownNonTerminals productions) productions) start productions := by
  unfold ofShownProductions
  rw [if_neg fun empty => filled (List.isEmpty_iff.mp empty)]
  dsimp only
  cases listed : (shownNonTerminals productions).toList with
  | nil =>
    rw [listed] at first
    cases first
  | cons symbol rest =>
    rw [listed] at first
    obtain rfl := Option.some.inj first
    rfl

theorem nonTerminals_of_shown (shown : ofShownProductions productions = .ok G) :
    G.nonTerminals = shownNonTerminals productions :=
  congrArg Grammar.nonTerminals (parts_of_ofProductions (parts_of_shown shown).2.2)

theorem terminals_of_shown (shown : ofShownProductions productions = .ok G) :
    G.terminals = otherSymbols (shownNonTerminals productions) productions :=
  congrArg Grammar.terminals (parts_of_ofProductions (parts_of_shown shown).2.2)

theorem shown_of_mem {p : Production} (mem : p ∈ productions) :
    ∀ symbol ∈ p.head ++ withoutEpsilon p.body, symbol ∈ shownNonTerminals productions ∨
      symbol ∈ otherSymbols (shownNonTerminals productions) productions := by
  intro symbol inside
  refine or_iff_not_imp_left.mpr fun unshown => mem_otherSymbols.mpr ⟨⟨p, mem, ?_⟩, unshown⟩
  exact List.mem_append.mpr ((List.mem_append.mp inside).symm.imp_left fun kept =>
    (List.mem_filter.mp kept).1)

theorem consistent_of_shown (shown : ofShownProductions productions = .ok G) : G.Consistent :=
  consistent_of_ofProductions (parts_of_shown shown).2.2

theorem exists_production_of_shown (shown : ofShownProductions productions = .ok G)
    (declared : symbol ∈ G.symbols) : ∃ p ∈ productions, symbol ∈ p.head ++ p.body := by
  rcases List.mem_append.mp declared with known | other
  · rw [OrderedSet.mem_toList, nonTerminals_of_shown shown] at known
    obtain ⟨⟨p, mem, inside⟩, _⟩ := mem_shownNonTerminals.mp known
    exact ⟨p, mem, List.mem_append_left p.body inside⟩
  · rw [OrderedSet.mem_toList, terminals_of_shown shown] at other
    obtain ⟨⟨p, mem, inside⟩, _⟩ := mem_otherSymbols.mp other
    exact ⟨p, mem, List.mem_append.mpr (List.mem_append.mp inside).symm⟩

private theorem map_withoutEpsilon (visible : ∀ p ∈ productions, Symbol.epsilon ∉ p.body) :
    (productions.map fun p => { p with body := withoutEpsilon p.body }) = productions := by
  refine (List.map_congr_left fun p mem => ?_).trans (List.map_id productions)
  rw [withoutEpsilon_eq_self (visible p mem)]
  rfl

theorem rules_of_shown (shown : ofShownProductions productions = .ok G)
    (visible : ∀ p ∈ productions, Symbol.epsilon ∉ p.body) :
    G.rules = productions.foldl Rules.add .empty := by
  have parts := parts_of_ofProductions (parts_of_shown shown).2.2
  rw [map_withoutEpsilon visible] at parts
  exact congrArg Grammar.rules parts

theorem mem_productions_of_shown (shown : ofShownProductions productions = .ok G)
    (visible : ∀ p ∈ productions, Symbol.epsilon ∉ p.body) (p : Production) :
    p ∈ G.rules.productions ↔ p ∈ productions := by
  rw [rules_of_shown shown visible, Rules.mem_productions_foldl_add]
  refine or_iff_right ?_
  rw [Rules.mem_productions_iff]
  exact OrderedSet.not_mem_empty _

private theorem head?_shownNonTerminals_rules (shown : ofShownProductions productions = .ok G)
    (visible : ∀ p ∈ productions, Symbol.epsilon ∉ p.body) :
    (shownNonTerminals G.rules.productions).toList.head? = some G.start := by
  have order (given : List Production) (find : Word → Option Symbol) :
      (given.foldl Rules.add .empty).keys.findSome? find =
        (given.map Production.head).findSome? find := Rules.findSome?_keys_foldl_add
  have heads (head : Word) : head ∈ G.rules.productions.map Production.head ↔
      head ∈ productions.map Production.head := by
    simp only [List.mem_map, mem_productions_of_shown shown visible]
  have rebuilt := Rules.foldl_add_productions (consistent_of_shown shown).filled
  calc (shownNonTerminals G.rules.productions).toList.head?
    _ = (G.rules.productions.map Production.head).findSome? (List.find? fun symbol =>
        decide ([symbol] ∈ productions.map Production.head) || looksLikeNonTerminal symbol) := by
      rw [head?_shownNonTerminals]
      simp only [heads]
    _ = (productions.map Production.head).findSome? (List.find? fun symbol =>
        decide ([symbol] ∈ productions.map Production.head) || looksLikeNonTerminal symbol) := by
      rw [← order G.rules.productions, rebuilt, rules_of_shown shown visible, order]
    _ = some G.start := by rw [← (parts_of_shown shown).2.1, head?_shownNonTerminals]

theorem exists_same_of_shown (shown : ofShownProductions productions = .ok G)
    (visible : ∀ p ∈ productions, Symbol.epsilon ∉ p.body) :
    ∃ H, ofShownProductions G.rules.productions = .ok H ∧ H.Same G := by
  obtain ⟨filled, _⟩ := parts_of_shown shown
  have whole := consistent_of_shown shown
  have members := mem_productions_of_shown shown visible
  have visible' (p : Production) (mem : p ∈ G.rules.productions) : Symbol.epsilon ∉ p.body :=
    visible p ((members p).mp mem)
  have start := head?_shownNonTerminals_rules shown visible
  have begins := OrderedSet.mem_toList.mp (List.mem_of_mem_head? start)
  obtain ⟨again, read, _⟩ := ofProductions_eq_ok begins whole.fits.head_ne fun p mem =>
    shown_of_mem mem
  have rules : again = G.rules := by
    have parts := congrArg Grammar.rules (parts_of_ofProductions read)
    rw [map_withoutEpsilon visible', Rules.foldl_add_productions whole.filled] at parts
    exact parts
  have nonempty : G.rules.productions ≠ [] := by
    obtain ⟨p, mem⟩ := List.exists_mem_of_ne_nil productions filled
    exact List.ne_nil_of_mem ((members p).mpr mem)
  refine ⟨_, (shown_of_head? nonempty start).trans read, OrderedSet.same_iff.mpr fun symbol => ?_,
    OrderedSet.same_iff.mpr fun symbol => ?_, rfl, ?_⟩
  · rw [nonTerminals_of_shown shown]
    simp only [mem_shownNonTerminals, members]
  · rw [terminals_of_shown shown]
    simp only [mem_otherSymbols, mem_shownNonTerminals, members]
  · rw [rules]
    exact OrderedTable.Same.refl (fun bodies => OrderedSet.same_iff.mpr fun _ => Iff.rfl) _

end Shown

end Grammar

end LanguageTheory

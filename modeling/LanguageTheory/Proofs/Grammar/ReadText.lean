import Mathlib.Data.List.TakeWhile
import LanguageTheory.Grammar.Derivation
import LanguageTheory.Proofs.Grammar.Notation
import LanguageTheory.Proofs.Grammar.ShownGrammar

/-!
How reading a grammar can end. A stage that refuses a text does so with a fault of the syntax, and
the number in the fault is that of a line that is not blank, or zero if the text as a whole is at
fault. The stages before the last one give only productions that pass its checks, so nothing else
can go wrong (`parse_outcome`, which also says what a grammar that was read looks like).
-/

set_option autoImplicit false
set_option relaxedAutoImplicit false

namespace LanguageTheory

/-- A character that is not blank stands on the line with this number, counted from 1. -/
def Text.VisibleLine (text : List Char) (number : Nat) : Prop :=
  ∃ before c after, text = before ++ c :: after ∧ isBlank c = false ∧ number = before.count '\n' + 1

private theorem Text.exists_visible_of_trim {line : List Char} (filled : trim line ≠ []) :
    ∃ c ∈ line, isBlank c = false := by
  by_contra blank
  simp only [not_exists, not_and, Bool.not_eq_false] at blank
  have dropped : line.dropWhile isBlank = [] := List.dropWhile_eq_nil_iff.mpr blank
  refine filled ?_
  rw [trim, dropped]
  rfl

namespace Grammar

section Outcome

universe u

variable {α : Type u} {numbers : Nat → Prop} {number : Nat} {spaced : Bool} {text : String}
  {lines : List RuleLine} {productions : List Production}

/-- If the result is an error, it is a fault of the syntax, and its number is one of these. -/
def FaultsAt (numbers : Nat → Prop) (result : Except Error α) : Prop :=
  ∀ e, result = .error e → ∃ number fault, e = .grammarSyntax number fault ∧ numbers number

private theorem faultsAt_ok (numbers : Nat → Prop) (a : α) : FaultsAt numbers (.ok a) := by
  intro e failed
  cases failed

private theorem faultsAt_syntax (fault : GrammarFault) (here : numbers number) :
    FaultsAt numbers (.error (.grammarSyntax number fault) : Except Error α) := by
  intro e failed
  obtain rfl := Except.error.inj failed
  exact ⟨number, fault, rfl, here⟩

private theorem faultsAt_readLine (number : Nat) (line : List Char) :
    FaultsAt (· = number) (readLine number line) := by
  unfold readLine
  split
  · exact faultsAt_syntax .noArrow rfl
  · dsimp only
    split
    · exact faultsAt_syntax .emptyAlternative rfl
    · exact faultsAt_ok _ _

private theorem faultsAt_lineProductions (spaced : Bool) (lines : List RuleLine) :
    FaultsAt (fun n => ∃ line ∈ lines, line.number = n) (lineProductions spaced lines) := by
  induction lines with
  | nil => exact faultsAt_ok _ _
  | cons line lines ih =>
    unfold lineProductions
    dsimp only
    split
    · exact faultsAt_syntax .noHead ⟨line, List.mem_cons_self, rfl⟩
    · cases rest : lineProductions spaced lines with
      | error e =>
        obtain ⟨n, fault, rfl, found, mem, rfl⟩ := ih e rest
        exact faultsAt_syntax fault ⟨found, List.mem_cons_of_mem line mem, rfl⟩
      | ok productions => exact faultsAt_ok _ _

/-- The parts that productions with heads show fit together, so no check of the parts can fail. -/
private theorem faultsAt_ofShownProductions (heads : ∀ p ∈ productions, p.head ≠ []) :
    FaultsAt (· = 0) (ofShownProductions productions) := by
  by_cases empty : productions = []
  · rw [empty]
    exact faultsAt_syntax .noProductions rfl
  · cases shown : (shownNonTerminals productions).toList.head? with
    | none =>
      rw [ofShownProductions, if_neg fun none => empty (List.isEmpty_iff.mp none)]
      rw [List.head?_eq_none_iff] at shown
      simp only [shown]
      exact faultsAt_syntax .noNonTerminal rfl
    | some start =>
      have begins : start ∈ shownNonTerminals productions := List.mem_of_mem_head? shown
      obtain ⟨rules, built, _⟩ := ofProductions_eq_ok begins heads fun p mem => shown_of_mem mem
      rw [shown_of_head? empty shown, built]
      exact faultsAt_ok _ _

private theorem LineResult.exists_visibleLine {text : List Char} {result : Except Error RuleLine}
    (looked : LineResult 1 (Text.splitAt '\n' text) result) :
    ∃ number line, Text.VisibleLine text number ∧ readLine number line = result := by
  obtain ⟨index, line, found, filled, read⟩ := looked
  obtain ⟨c, inside, visible⟩ := Text.exists_visible_of_trim filled
  obtain ⟨before, after, split, count⟩ := Text.exists_place_of_splitAt found inside
  refine ⟨1 + index, Text.trim line, ⟨before, c, after, split, visible, ?_⟩, read⟩
  rw [count, Nat.add_comm]

private theorem visibleLine_of_readLines
    (read : readLines 1 (Text.splitAt '\n' text.toList) = .ok lines) :
    ∀ line ∈ lines, Text.VisibleLine text.toList line.number := by
  intro line mem
  obtain ⟨number, shown, visible, here⟩ :=
    (lineResult_of_readLines read line mem).exists_visibleLine
  rwa [(of_readLine here).1]

/-- Whatever is wrong with a text is a fault of the syntax, in the text as a whole or on a line that
is not blank. -/
private theorem faultsAt_parse (text : String) :
    FaultsAt (fun n => n = 0 ∨ Text.VisibleLine text.toList n) (parse text) := by
  unfold parse
  rcases readLines_cases 1 (Text.splitAt '\n' text.toList) with
    ⟨lines, lines_read, _⟩ | ⟨e, failed, stopped⟩
  · rw [lines_read]
    dsimp only
    cases words_read : lineProductions (isSpaced lines) lines with
    | error e =>
      obtain ⟨n, fault, rfl, line, mem, rfl⟩ := faultsAt_lineProductions _ _ e words_read
      exact faultsAt_syntax fault (Or.inr (visibleLine_of_readLines lines_read line mem))
    | ok productions =>
      have heads (p : Production) (mem : p ∈ productions) : p.head ≠ [] :=
        (of_lineProductions words_read p mem).1
      intro e failed
      obtain ⟨n, fault, rfl, rfl⟩ := faultsAt_ofShownProductions heads e failed
      exact ⟨0, fault, rfl, Or.inl rfl⟩
  · obtain ⟨number, line, visible, here⟩ := stopped.exists_visibleLine
    obtain ⟨n, fault, rfl, rfl⟩ := faultsAt_readLine number line e here
    rw [failed]
    exact faultsAt_syntax fault (Or.inr visible)

end Outcome

section Result

variable {lines : List RuleLine} {productions : List Production} {spaced : Bool} {symbol : Symbol}
  {G : Grammar}

def headWords (lines : List RuleLine) : List Word :=
  lines.map fun line => readWord (isSpaced lines) line.head

def firstNonTerminal? (G : Grammar) (heads : List Word) : Option Symbol :=
  heads.flatten.find? fun symbol => decide (symbol ∈ G.nonTerminals)

private theorem findSome?_repeated {find : Word → Option Symbol} {head : Word}
    {texts : List (List Char)} (filled : texts ≠ []) :
    (texts.map fun _ => head).findSome? find = find head := by
  obtain ⟨first, others, rfl⟩ := List.exists_cons_of_ne_nil filled
  cases found : find head with
  | some symbol => rw [List.map_cons, List.findSome?_cons, found]
  | none =>
    refine List.findSome?_eq_none_iff.mpr fun other mem => ?_
    obtain ⟨_, _, rfl⟩ := List.mem_map.mp mem
    exact found

private theorem findSome?_heads_of_lines (read : lineProductions spaced lines = .ok productions)
    (alternatives : ∀ line ∈ lines, line.alternatives ≠ []) (find : Word → Option Symbol) :
    (productions.map Production.head).findSome? find =
      (lines.map fun line => readWord spaced line.head).findSome? find := by
  induction lines generalizing productions with
  | nil =>
    obtain rfl := Except.ok.inj read
    rfl
  | cons line lines ih =>
    rw [List.forall_mem_cons] at alternatives
    obtain ⟨_, rest, later, rfl⟩ := of_lineProductions_cons read
    have heads : ((line.alternatives.map fun text => Production.mk (readWord spaced line.head)
        (readWord spaced text)) ++ rest).map Production.head =
          (line.alternatives.map fun _ => readWord spaced line.head) ++
          rest.map Production.head := by
      rw [List.map_append, List.map_map]
      rfl
    rw [heads, List.findSome?_append, findSome?_repeated alternatives.1, ih later alternatives.2,
      List.map_cons, List.findSome?_cons]
    cases find (readWord spaced line.head) with
    | some symbol => rfl
    | none => rfl

private theorem disjoint_of_shown (shown : ofShownProductions productions = .ok G) :
    G.Disjoint := by
  intro symbol known other
  rw [nonTerminals_of_shown shown] at known
  rw [terminals_of_shown shown] at other
  exact (mem_otherSymbols.mp other).2 known

private theorem mem_nonTerminals_of_single {p : Production}
    (shown : ofShownProductions productions = .ok G) (mem : p ∈ productions)
    (single : p.head = [symbol]) : symbol ∈ G.nonTerminals := by
  rw [nonTerminals_of_shown shown]
  exact mem_shownNonTerminals.mpr ⟨⟨p, mem, single ▸ List.mem_singleton_self symbol⟩,
    Or.inl ⟨p, mem, single⟩⟩

private theorem firstNonTerminal?_of_shown (shown : ofShownProductions productions = .ok G) :
    G.firstNonTerminal? (productions.map Production.head) = some G.start := by
  have same : ∀ symbol ∈ (productions.map Production.head).flatten,
      decide (symbol ∈ G.nonTerminals) =
        (decide ([symbol] ∈ productions.map Production.head) || looksLikeNonTerminal symbol) := by
    intro symbol inside
    rw [Bool.eq_iff_iff, decide_eq_true_eq, nonTerminals_of_shown shown, shownNonTerminals,
      OrderedSet.mem_ofList, List.mem_filter]
    exact and_iff_right inside
  rw [firstNonTerminal?, ← List.head?_filter, List.filter_congr same, List.head?_filter,
    List.find?_flatten, ← head?_shownNonTerminals]
  exact (parts_of_shown shown).2.1

/-- Heads in which every search finds the same have the same first non-terminal: it does not matter
how often a head comes again. -/
private theorem firstNonTerminal?_congr {heads others : List Word}
    (same : ∀ find : Word → Option Symbol, heads.findSome? find = others.findSome? find) :
    G.firstNonTerminal? heads = G.firstNonTerminal? others := by
  rw [firstNonTerminal?, firstNonTerminal?, List.find?_flatten, List.find?_flatten, same]

end Result

/-- Reading a text fails with a fault of the syntax, in the text as a whole or on a line that is not
blank, or gives a grammar in which no symbol is of both kinds, every declared symbol is used, the
start symbol is the first non-terminal of the heads, in the lines as in the rules, a head of one
symbol is a non-terminal, and no rule spells the empty word. -/
theorem parse_outcome (text : String) :
    (∃ number fault, parse text = .error (.grammarSyntax number fault) ∧
      (number = 0 ∨ Text.VisibleLine text.toList number)) ∨
    ∃ G, parse text = .ok G ∧ G.Disjoint ∧
      (∀ symbol ∈ G.symbols, ∃ p ∈ G.rules.productions, symbol ∈ p.head ++ p.body) ∧
      (∃ lines, readLines 1 (Text.splitAt '\n' text.toList) = .ok lines ∧
        G.firstNonTerminal? (headWords lines) = some G.start) ∧
      G.firstNonTerminal? G.rules.keys = some G.start ∧
      (∀ symbol, [symbol] ∈ G.rules.keys → symbol ∈ G.nonTerminals) ∧
      ∀ p ∈ G.rules.productions, ∀ symbol ∈ p.head ++ p.body,
        symbol ≠ Symbol.epsilon ∧ symbol ≠ Symbol.epsilonAlias := by
  cases result : parse text with
  | error e =>
    obtain ⟨number, fault, rfl, here⟩ := faultsAt_parse text e result
    exact Or.inl ⟨number, fault, rfl, here⟩
  | ok G =>
    obtain ⟨lines, productions, lines_read, words_read, shown⟩ := parse_eq_ok_iff.mp result
    have legible := legible_of_lineProductions (separate_of_readLines lines_read) words_read
    have visible (p : Production) (mem : p ∈ productions) := (legible p mem).body_visible
    have members := mem_productions_of_shown shown visible
    have start := firstNonTerminal?_of_shown shown
    refine Or.inr ⟨G, rfl, disjoint_of_shown shown, fun symbol declared => ?_,
      ⟨lines, lines_read, ?_⟩, ?_, fun symbol known => ?_, fun p mem symbol inside => ?_⟩
    · obtain ⟨p, mem, inside⟩ := exists_production_of_shown shown declared
      exact ⟨p, (members p).mpr mem, inside⟩
    · rw [← start]
      exact (firstNonTerminal?_congr
        (findSome?_heads_of_lines words_read (alternatives_of_readLines lines_read))).symm
    · rw [← start, rules_of_shown shown visible]
      exact firstNonTerminal?_congr fun find => Rules.findSome?_keys_foldl_add
    · obtain ⟨e, entry, single⟩ := List.mem_map.mp known
      obtain ⟨body, mem⟩ := (consistent_of_shown shown).filled.exists_production entry
      exact mem_nonTerminals_of_single shown ((members _).mp mem) single
    · have shape := (legible p ((members p).mp mem)).symbols symbol inside
      exact ⟨shape.ne_epsilon, shape.ne_alias⟩

/-- The head of the third line that is not blank is read as the empty word, and that is line 5. -/
example : parse "S -> a S\n\n S → b\n\n ε -> a" = .error (.grammarSyntax 5 .noHead) := rfl

end Grammar

end LanguageTheory

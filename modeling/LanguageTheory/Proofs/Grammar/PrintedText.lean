import LanguageTheory.Grammar.Basic
import LanguageTheory.Proofs.Grammar.Notation
import LanguageTheory.Proofs.Grammar.ShownGrammar

/-!
Printed grammars, read again. A grammar that was read is printed with a line for each head, and
reading finds these lines, their heads and their bodies. Whether symbols are separated by blanks is
decided from the text, and a printed text has blanks inside words only if some word has two symbols.
So the grammar comes back if there is such a word or if all symbols are read as one symbol without
blanks (`reread_exact`); otherwise it does not (`not_forall_reread`).
-/

set_option autoImplicit false
set_option relaxedAutoImplicit false

namespace LanguageTheory.Grammar

section Words

variable {word : Word} {symbol : Symbol} {c : Char}

private theorem toList_text_cons (symbol : Symbol) (rest : Word) :
    (Word.text (symbol :: rest)).toList =
      [' '].intercalate ((symbol :: rest).map String.toList) := by
  rw [Word.text, String.toList_intercalate]
  · rfl
  · exact List.cons_ne_nil symbol rest

private theorem visible_parts (legible : ∀ symbol ∈ word, LegibleSymbol symbol) :
    ∀ part ∈ word.map String.toList, part ≠ [] ∧ ∀ c ∈ part, Text.isBlank c = false :=
  List.forall_mem_map.mpr fun symbol mem =>
    ⟨(legible symbol mem).filled, (legible symbol mem).visible⟩

private theorem visibleEnds_text (legible : ∀ symbol ∈ word, LegibleSymbol symbol) :
    Text.VisibleEnds word.text.toList := by
  cases word with
  | nil => exact .of_visible (by decide) (List.forall_mem_singleton.mpr (by decide))
  | cons symbol rest =>
    rw [toList_text_cons]
    refine .intercalate (List.cons_ne_nil _ _) (fun part mem => ?_) [' ']
    obtain ⟨filled, visible⟩ := visible_parts legible part mem
    exact .of_visible filled visible

private theorem mem_text (mem : c ∈ word.text.toList) :
    c = ' ' ∨ c = 'ε' ∨ ∃ symbol ∈ word, c ∈ symbol.toList := by
  cases word with
  | nil => exact Or.inr (Or.inl (List.mem_singleton.mp mem))
  | cons symbol rest =>
    rw [toList_text_cons] at mem
    rcases Text.mem_intercalate mem with blank | ⟨part, found, inside⟩
    · exact Or.inl (List.mem_singleton.mp blank)
    · obtain ⟨other, member, rfl⟩ := List.mem_map.mp found
      exact Or.inr (Or.inr ⟨other, member, inside⟩)

private theorem newline_not_mem_text (legible : ∀ symbol ∈ word, LegibleSymbol symbol) :
    '\n' ∉ word.text.toList := by
  intro mem
  rcases mem_text mem with blank | empty | ⟨symbol, inside, member⟩
  · exact absurd blank (by decide)
  · exact absurd empty (by decide)
  · exact absurd ((legible symbol inside).visible '\n' member) (by decide)

private theorem not_arrow_infix_text (plain : ∀ symbol ∈ word, ¬ arrow <:+: symbol.toList) :
    ¬ arrow <:+: word.text.toList := by
  cases word with
  | nil => decide
  | cons symbol rest =>
    rw [toList_text_cons]
    intro found
    obtain ⟨part, mem, inside⟩ := Text.infix_intercalate (by decide) (by decide) found
    obtain ⟨other, member, rfl⟩ := List.mem_map.mp mem
    exact plain other member inside

private theorem any_isBlank_text (legible : ∀ symbol ∈ word, LegibleSymbol symbol) :
    word.text.toList.any Text.isBlank = true ↔ 2 ≤ word.length := by
  match word with
  | [] => decide
  | [symbol] =>
    have visible := (legible symbol (List.mem_singleton_self symbol)).visible
    rw [toList_text_cons, List.map_singleton, List.intercalate_singleton, List.any_eq_true]
    constructor
    · rintro ⟨c, mem, blank⟩
      rw [visible c mem] at blank
      cases blank
    · intro long
      simp at long
  | first :: second :: rest =>
    rw [toList_text_cons, List.map_cons, List.map_cons, List.intercalate_cons_cons, List.any_append,
      List.any_append]
    simp [Text.isBlank, Text.blankRanges]

def Single (word : Word) : Prop := word.length < 2 ∧ ∀ symbol ∈ word, Compact symbol

private theorem readWord_text {spaced : Bool} (legible : ∀ symbol ∈ word, LegibleSymbol symbol)
    (single : spaced = false → Single word) :
    readWord spaced word.text.toList = word := by
  cases word with
  | nil => cases spaced <;> decide
  | cons symbol rest =>
    have parts : (if spaced then Text.fields (Word.text (symbol :: rest)).toList
        else compactSymbols (Word.text (symbol :: rest)).toList) =
          (symbol :: rest).map String.toList := by
      rw [toList_text_cons]
      cases spaced with
      | true => exact Text.fields_intercalate (visible_parts legible)
      | false =>
        obtain ⟨short, compact⟩ := single rfl
        rw [List.length_cons] at short
        obtain rfl : rest = [] := List.length_eq_zero_iff.mp (by omega)
        rw [List.map_singleton, List.intercalate_singleton]
        exact (compact symbol (List.mem_singleton_self symbol)).compactSymbols_eq
    rw [readWord, parts, List.map_map]
    have same : (symbol :: rest).map (String.ofList ∘ String.toList) = symbol :: rest :=
      (List.map_congr_left fun other _ => String.ofList_toList).trans (List.map_id _)
    rw [same]
    refine List.filter_eq_self.mpr fun other mem => ?_
    exact decide_eq_true ⟨(legible other mem).ne_epsilon, (legible other mem).ne_alias⟩

end Words

section Lines

variable {e : Word × OrderedSet Word} {entries : List (Word × OrderedSet Word)} {spaced : Bool}

/-- A head has bodies, and all its productions look as if they had been read. -/
structure LegibleEntry (e : Word × OrderedSet Word) : Prop where
  filled : e.2.toList ≠ []
  productions : ∀ body ∈ e.2.toList, Legible ⟨e.1, body⟩

private theorem LegibleEntry.exists_production (legible : LegibleEntry e) :
    ∃ body, Legible ⟨e.1, body⟩ := by
  obtain ⟨body, mem⟩ := List.exists_mem_of_ne_nil _ legible.filled
  exact ⟨body, legible.productions body mem⟩

private theorem LegibleEntry.head_symbols (legible : LegibleEntry e) :
    ∀ symbol ∈ e.1, LegibleSymbol symbol := by
  obtain ⟨body, production⟩ := legible.exists_production
  exact fun symbol mem => production.symbols symbol (List.mem_append_left body mem)

private theorem LegibleEntry.body_symbols (legible : LegibleEntry e) {body : Word}
    (mem : body ∈ e.2.toList) :
    ∀ symbol ∈ body, LegibleSymbol symbol :=
  fun symbol inside => (legible.productions body mem).symbols symbol
    (List.mem_append_right e.1 inside)

def bodyTexts (e : Word × OrderedSet Word) : List (List Char) :=
  e.2.toList.map fun body => body.text.toList

private theorem LegibleEntry.bodyTexts_ne (legible : LegibleEntry e) : bodyTexts e ≠ [] :=
  fun none => legible.filled (List.map_eq_nil_iff.mp none)

private theorem LegibleEntry.visibleEnds_bodies (legible : LegibleEntry e) :
    ∀ text ∈ bodyTexts e, Text.VisibleEnds text :=
  List.forall_mem_map.mpr fun _ mem => visibleEnds_text (legible.body_symbols mem)

private theorem LegibleEntry.bar_not_mem (legible : LegibleEntry e) :
    ∀ text ∈ bodyTexts e, '|' ∉ text := by
  refine List.forall_mem_map.mpr fun body mem bar => ?_
  rcases mem_text bar with blank | empty | ⟨symbol, inside, member⟩
  · exact absurd blank (by decide)
  · exact absurd empty (by decide)
  · exact (legible.productions body mem).body_plain symbol inside member

def printedLine (e : Word × OrderedSet Word) : List Char :=
  e.1.text.toList ++ ' ' :: (arrow ++ ' ' :: [' ', '|', ' '].intercalate (bodyTexts e))

private theorem toList_ruleText (e : Word × OrderedSet Word) :
    (ruleText e.1 e.2).toList = printedLine e ++ ['\n'] := by
  have middle : " -> ".toList = ' ' :: (arrow ++ [' ']) := rfl
  have bar : " | ".toList = [' ', '|', ' '] := rfl
  have lineEnd : "\n".toList = ['\n'] := rfl
  simp only [ruleText, String.toList_append, String.toList_intercalate, middle, bar, lineEnd,
    printedLine, bodyTexts, List.map_map, Function.comp_def]
  simp

private theorem toList_text (G : Grammar) :
    G.text.toList = G.rules.entries.flatMap fun e => printedLine e ++ ['\n'] := by
  rw [text, String.toList_join, List.flatMap_map]
  exact List.flatMap_congr fun e _ => toList_ruleText e

private theorem LegibleEntry.newline_not_mem (legible : LegibleEntry e) : '\n' ∉ printedLine e := by
  have bodies : '\n' ∉ [' ', '|', ' '].intercalate (bodyTexts e) := by
    intro mem
    rcases Text.mem_intercalate mem with between | ⟨part, found, inside⟩
    · exact absurd between (by decide)
    · obtain ⟨body, member, rfl⟩ := List.mem_map.mp found
      exact newline_not_mem_text (legible.body_symbols member) inside
  have head := newline_not_mem_text legible.head_symbols
  simp [printedLine, arrow, head, bodies]

private theorem LegibleEntry.visibleEnds (legible : LegibleEntry e) :
    Text.VisibleEnds (printedLine e) := by
  have bodies := Text.VisibleEnds.intercalate legible.bodyTexts_ne
    legible.visibleEnds_bodies [' ', '|', ' ']
  have whole := (visibleEnds_text legible.head_symbols).around (' ' :: (arrow ++ [' '])) bodies
  simpa [printedLine] using whole

private theorem LegibleEntry.readLine_eq (legible : LegibleEntry e) (number : Nat) :
    readLine number (printedLine e) = .ok ⟨number, e.1.text.toList, bodyTexts e⟩ := by
  obtain ⟨body, production⟩ := legible.exists_production
  have cut : Text.cutAtFirst ['-', '>'] (printedLine e) =
      some (e.1.text.toList ++ [' '], ' ' :: [' ', '|', ' '].intercalate (bodyTexts e)) :=
    Text.cutAtFirst_append (not_arrow_infix_text production.head_plain) (by decide) (by decide)
  have head : Text.trim ([] ++ e.1.text.toList ++ [' ']) = e.1.text.toList :=
    Text.trim_padded (List.forall_mem_nil _) Text.isBlank_of_mem_blank
      (visibleEnds_text legible.head_symbols)
  have bodies :
      (Text.splitAt '|' (' ' :: [' ', '|', ' '].intercalate (bodyTexts e))).map Text.trim =
        bodyTexts e := by
    refine Text.map_trim_splitWhere (decide_eq_true rfl) (by decide) legible.bodyTexts_ne
      (fun text mem c inside => decide_eq_false ?_) legible.visibleEnds_bodies
    rintro rfl
    exact legible.bar_not_mem text mem inside
  have filled : ¬ (bodyTexts e).any List.isEmpty = true := by
    rw [List.any_eq_true]
    rintro ⟨text, mem, empty⟩
    exact (legible.visibleEnds_bodies text mem).filled (List.isEmpty_iff.mp empty)
  rw [List.nil_append] at head
  simp only [readLine, cutAtArrow, cut, bodies, head]
  exact if_neg filled

def printedParts (number : Nat) : List (Word × OrderedSet Word) → List RuleLine
  | [] => []
  | e :: entries => ⟨number, e.1.text.toList, bodyTexts e⟩ :: printedParts (number + 1) entries

private theorem splitAt_printed (legible : ∀ e ∈ entries, LegibleEntry e) :
    Text.splitAt '\n' (entries.flatMap fun e => printedLine e ++ ['\n']) =
      entries.map printedLine ++ [[]] := by
  induction entries with
  | nil => rfl
  | cons e entries ih =>
    rw [List.forall_mem_cons] at legible
    have plain : ∀ c ∈ printedLine e, decide (c = '\n') = false := by
      refine fun c mem => decide_eq_false ?_
      rintro rfl
      exact legible.1.newline_not_mem mem
    rw [List.flatMap_cons, List.append_assoc, List.singleton_append, Text.splitAt,
      Text.splitWhere_append plain (decide_eq_true rfl)]
    exact congrArg (List.cons (printedLine e)) (ih legible.2)

private theorem readLines_printed (legible : ∀ e ∈ entries, LegibleEntry e) (number : Nat) :
    readLines number (entries.map printedLine ++ [[]]) = .ok (printedParts number entries) := by
  induction entries generalizing number with
  | nil => rfl
  | cons e entries ih =>
    rw [List.forall_mem_cons] at legible
    have ends := legible.1.visibleEnds
    have filled : ¬ (printedLine e).isEmpty = true :=
      fun empty => ends.filled (List.isEmpty_iff.mp empty)
    rw [List.map_cons, List.cons_append, readLines]
    simp only [ends.trim_eq, legible.1.readLine_eq, ih legible.2]
    exact if_neg filled

private theorem isSpaced_printedParts (legible : ∀ e ∈ entries, LegibleEntry e) (number : Nat) :
    isSpaced (printedParts number entries) = true ↔
      ∃ e ∈ entries, 2 ≤ e.1.length ∨ ∃ body ∈ e.2.toList, 2 ≤ body.length := by
  induction entries generalizing number with
  | nil => simp [printedParts, isSpaced]
  | cons e entries ih =>
    rw [List.forall_mem_cons] at legible
    have here : ((e.1.text.toList :: bodyTexts e).any fun text => text.any Text.isBlank) = true ↔
        2 ≤ e.1.length ∨ ∃ body ∈ e.2.toList, 2 ≤ body.length := by
      rw [List.any_cons, Bool.or_eq_true, any_isBlank_text legible.1.head_symbols, bodyTexts,
        List.any_map, List.any_eq_true]
      refine or_congr_right (exists_congr fun body => and_congr_right fun mem => ?_)
      exact any_isBlank_text (legible.1.body_symbols mem)
    have later := ih legible.2 (number + 1)
    rw [printedParts, isSpaced, List.any_cons, Bool.or_eq_true, List.exists_mem_cons_iff]
    exact or_congr here later

private theorem lineProductions_printedParts (legible : ∀ e ∈ entries, LegibleEntry e)
    (number : Nat)
    (single : spaced = false → ∀ e ∈ entries, Single e.1 ∧ ∀ body ∈ e.2.toList, Single body) :
    lineProductions spaced (printedParts number entries) =
      .ok (entries.flatMap fun e => e.2.toList.map (Production.mk e.1)) := by
  induction entries generalizing number with
  | nil => rfl
  | cons e entries ih =>
    rw [List.forall_mem_cons] at legible
    have single_here (compact : spaced = false) := single compact e List.mem_cons_self
    obtain ⟨body, production⟩ := legible.1.exists_production
    have head : readWord spaced e.1.text.toList = e.1 :=
      readWord_text legible.1.head_symbols fun compact => (single_here compact).1
    have bodies : ((bodyTexts e).map fun text => Production.mk e.1 (readWord spaced text)) =
        e.2.toList.map (Production.mk e.1) := by
      rw [bodyTexts, List.map_map]
      refine List.map_congr_left fun body mem => ?_
      exact congrArg (Production.mk e.1) (readWord_text (legible.1.body_symbols mem) fun compact =>
        (single_here compact).2 body mem)
    have filled : ¬ e.1.isEmpty = true :=
      fun empty => production.head_ne (List.isEmpty_iff.mp empty)
    have later := ih legible.2 (number + 1) fun compact other mem =>
      single compact other (List.mem_cons_of_mem e mem)
    rw [printedParts, lineProductions]
    simp only [head, later, bodies, List.flatMap_cons]
    exact if_neg filled

end Lines

section Rereading

variable {G : Grammar} {text : String}

private theorem readLines_text (legible : ∀ e ∈ G.rules.entries, LegibleEntry e) :
    readLines 1 (Text.splitAt '\n' G.text.toList) = .ok (printedParts 1 G.rules.entries) := by
  rw [toList_text, splitAt_printed legible, readLines_printed legible]

private theorem parse_text_of_legible (legible : ∀ e ∈ G.rules.entries, LegibleEntry e)
    (single : isSpaced (printedParts 1 G.rules.entries) = false →
      ∀ e ∈ G.rules.entries, Single e.1 ∧ ∀ body ∈ e.2.toList, Single body) :
    parse G.text = ofShownProductions G.rules.productions := by
  rw [parse, readLines_text legible]
  simp only [lineProductions_printedParts legible 1 single]
  rfl

private theorem mem_productions_of_entry {e : Word × OrderedSet Word} {body : Word}
    (mem : e ∈ G.rules.entries) (member : body ∈ e.2.toList) : ⟨e.1, body⟩ ∈ G.rules.productions :=
  List.mem_flatMap.mpr ⟨e, mem, List.mem_map_of_mem member⟩

private theorem of_parse (read : parse text = .ok G) : (∀ e ∈ G.rules.entries, LegibleEntry e) ∧
    G.Consistent ∧ ∃ H, ofShownProductions G.rules.productions = .ok H ∧ H.Same G := by
  obtain ⟨lines, productions, lines_read, words_read, shown⟩ := parse_eq_ok_iff.mp read
  have legible := legible_of_lineProductions (separate_of_readLines lines_read) words_read
  have visible (p : Production) (mem : p ∈ productions) := (legible p mem).body_visible
  have whole := consistent_of_shown shown
  refine ⟨fun e mem => ⟨whole.filled e mem, fun body member => legible _ ?_⟩, whole,
    exists_same_of_shown shown visible⟩
  exact (mem_productions_of_shown shown visible _).mp (mem_productions_of_entry mem member)

private theorem isSpaced_text (legible : ∀ e ∈ G.rules.entries, LegibleEntry e) :
    isSpaced (printedParts 1 G.rules.entries) = true ↔
      ∃ p ∈ G.rules.productions, 2 ≤ p.head.length ∨ 2 ≤ p.body.length := by
  rw [isSpaced_printedParts legible]
  constructor
  · rintro ⟨e, mem, long | ⟨body, member, long⟩⟩
    · obtain ⟨body, member⟩ := List.exists_mem_of_ne_nil _ (legible e mem).filled
      exact ⟨⟨e.1, body⟩, mem_productions_of_entry mem member, Or.inl long⟩
    · exact ⟨⟨e.1, body⟩, mem_productions_of_entry mem member, Or.inr long⟩
  · rintro ⟨p, mem, long⟩
    obtain ⟨e, entry, found⟩ := List.mem_flatMap.mp mem
    obtain ⟨body, member, rfl⟩ := List.mem_map.mp found
    exact ⟨e, entry, long.imp_right fun long => ⟨body, member, long⟩⟩

private theorem compact_of_reread (legible : ∀ e ∈ G.rules.entries, LegibleEntry e)
    (compact : isSpaced (printedParts 1 G.rules.entries) = false) {H : Grammar}
    (again : parse G.text = .ok H) : ∀ symbol ∈ H.symbols, Compact symbol := by
  obtain ⟨lines, productions, lines_read, words_read, shown⟩ := parse_eq_ok_iff.mp again
  rw [readLines_text legible] at lines_read
  obtain rfl := Except.ok.inj lines_read
  rw [compact] at words_read
  intro symbol declared
  obtain ⟨p, mem, inside⟩ := exists_production_of_shown shown declared
  exact compact_of_lineProductions words_read p mem symbol inside

private theorem Consistent.declared_of_entry (whole : G.Consistent) {e : Word × OrderedSet Word}
    {body : Word} (mem : e ∈ G.rules.entries) (member : body ∈ e.2.toList) :
    ∀ symbol ∈ e.1 ++ body, symbol ∈ G.symbols := fun symbol inside =>
  List.mem_append.mpr (whole.fits.declared _ (mem_productions_of_entry mem member) symbol inside)

/-- The text of a grammar that was read is read as the same grammar exactly if some head or body has
two symbols or more, or else every symbol is one character with primes behind it. -/
theorem reread_exact (read : parse text = .ok G) :
    (∃ H, parse G.text = .ok H ∧ H.Same G) ↔
      (∃ p ∈ G.rules.productions, 2 ≤ p.head.length ∨ 2 ≤ p.body.length) ∨
        ∀ symbol ∈ G.symbols, Compact symbol := by
  obtain ⟨legible, whole, shown⟩ := of_parse read
  have spaced := isSpaced_text legible
  constructor
  · rintro ⟨H, again, same⟩
    refine or_iff_not_imp_left.mpr fun short symbol declared => ?_
    have compact := eq_false_of_ne_true fun long => short (spaced.mp long)
    refine compact_of_reread legible compact again symbol ?_
    exact List.mem_append.mpr
      ((List.mem_append.mp declared).imp (same.1.2 symbol) (same.2.1.2 symbol))
  · intro fine
    rw [parse_text_of_legible legible]
    · exact shown
    · intro compact e mem
      have short : ¬ ∃ p ∈ G.rules.productions, 2 ≤ p.head.length ∨ 2 ≤ p.body.length := fun long =>
        absurd (spaced.mpr long) (by simp [compact])
      have all := fine.resolve_left short
      have single (body : Word) (member : body ∈ e.2.toList) : Single e.1 ∧ Single body := by
        have declared := List.forall_mem_append.mp (whole.declared_of_entry mem member)
        have bounds : ¬ (2 ≤ e.1.length ∨ 2 ≤ body.length) := fun long =>
          short ⟨_, mem_productions_of_entry mem member, long⟩
        exact ⟨⟨by omega, fun symbol inside => all symbol (declared.1 symbol inside)⟩,
          ⟨by omega, fun symbol inside => all symbol (declared.2 symbol inside)⟩⟩
      obtain ⟨first, member⟩ := List.exists_mem_of_ne_nil _ (legible e mem).filled
      exact ⟨(single first member).1, fun body member => (single body member).2⟩

/-- Merged heads, a prime and an arrow of the other kind are read back. -/
theorem reread_exact_merged_heads : ∃ G H, parse "E' -> TE'\nT → id\nE' -> ε" = .ok G ∧
    (∃ p ∈ G.rules.productions, 2 ≤ p.body.length) ∧ parse G.text = .ok H ∧ H.Same G := by
  obtain ⟨G, read, p, mem, long⟩ : ∃ G, parse "E' -> TE'\nT → id\nE' -> ε" = .ok G ∧
      ∃ p ∈ G.rules.productions, 2 ≤ p.body.length :=
        ⟨_, rfl, ⟨["E'"], ["T", "E'"]⟩, by decide, by decide⟩
  obtain ⟨H, again, same⟩ := (reread_exact read).mpr (Or.inl ⟨p, mem, Or.inr long⟩)
  exact ⟨G, H, read, ⟨p, mem, long⟩, again, same⟩

/-- The dropped `ε` was the only reason to separate symbols by blanks; without it `id` is read as
two symbols. -/
theorem not_forall_reread :
    ¬ ∀ text G, parse text = .ok G → ∃ H, parse G.text = .ok H ∧ H.Same G := by
  intro reread
  obtain ⟨G, K, read, again, different⟩ : ∃ G K, parse "S -> id ε" = .ok G ∧ parse G.text = .ok K ∧
      ¬ K.Same G := ⟨_, _, rfl, rfl, by decide⟩
  obtain ⟨H, found, same⟩ := reread _ G read
  obtain rfl : K = H := Except.ok.inj (again.symm.trans found)
  exact different same

end Rereading

end LanguageTheory.Grammar

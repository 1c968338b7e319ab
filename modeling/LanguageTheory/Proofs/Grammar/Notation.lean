import LanguageTheory.Grammar.Reader
import LanguageTheory.Proofs.Grammar.Construction
import LanguageTheory.Proofs.Text.Layout

/-!
What is read from a text. The symbols have no blanks, no symbol of a head contains the arrow and no
symbol of a body the bar (`Legible`); and where symbols are not separated by blanks, each is one
character with the primes behind it (`Compact`).
-/

set_option autoImplicit false
set_option relaxedAutoImplicit false

namespace LanguageTheory.Grammar

section Symbols

variable {current part text : List Char} {spaced : Bool} {symbol : Symbol}

def Compact (symbol : Symbol) : Prop :=
  ∃ c primes, (∀ p ∈ primes, p = '\x27') ∧ symbol.toList = c :: primes

private theorem flatten_attachPrimes (current text : List Char) :
    (attachPrimes current text).flatten = current ++ text := by
  induction text generalizing current with
  | nil => simp [attachPrimes]
  | cons c text ih =>
    unfold attachPrimes
    split
    · rw [ih, List.append_assoc, List.singleton_append]
    · rw [List.flatten_cons, ih, List.singleton_append]

private theorem flatten_compactSymbols (text : List Char) :
    (compactSymbols text).flatten = text := by
  cases text with
  | nil => rfl
  | cons c text => exact flatten_attachPrimes [c] text

private theorem shape_of_mem_attachPrimes {c : Char} {primes : List Char}
    (behind : ∀ p ∈ primes, p = '\x27') (mem : part ∈ attachPrimes (c :: primes) text) :
    ∃ c primes, (∀ p ∈ primes, p = '\x27') ∧ part = c :: primes := by
  induction text generalizing c primes with
  | nil => exact ⟨c, primes, behind, List.mem_singleton.mp mem⟩
  | cons d text ih =>
    unfold attachPrimes at mem
    split at mem
    · rename_i prime
      exact ih (List.forall_mem_append.mpr ⟨behind, List.forall_mem_singleton.mpr prime⟩) mem
    · rcases List.mem_cons.mp mem with rfl | later
      · exact ⟨c, primes, behind, rfl⟩
      · exact ih (fun p none => absurd none List.not_mem_nil) later

private theorem attachPrimes_primes {primes : List Char} (behind : ∀ p ∈ primes, p = '\x27') :
    attachPrimes current primes = [current ++ primes] := by
  induction primes generalizing current with
  | nil => rw [attachPrimes, List.append_nil]
  | cons p primes ih =>
    rw [List.forall_mem_cons] at behind
    rw [attachPrimes, if_pos behind.1, ih behind.2, List.append_assoc, List.singleton_append]

theorem Compact.compactSymbols_eq (compact : Compact symbol) :
    compactSymbols symbol.toList = [symbol.toList] := by
  obtain ⟨c, primes, behind, same⟩ := compact
  rw [same]
  exact attachPrimes_primes behind

structure LegibleSymbol (symbol : Symbol) : Prop where
  filled : symbol.toList ≠ []
  visible : ∀ c ∈ symbol.toList, Text.isBlank c = false
  ne_epsilon : symbol ≠ Symbol.epsilon
  ne_alias : symbol ≠ Symbol.epsilonAlias

def Unspaced (spaced : Bool) (text : List Char) : Prop :=
  spaced = false → ∀ c ∈ text, Text.isBlank c = false

private theorem parts_of_mem_readWord (mem : symbol ∈ readWord spaced text) :
    symbol.toList ∈ (if spaced then Text.fields text else compactSymbols text) ∧
      symbol ≠ Symbol.epsilon ∧ symbol ≠ Symbol.epsilonAlias := by
  obtain ⟨found, kept⟩ := List.mem_filter.mp mem
  obtain ⟨part, inside, rfl⟩ := List.mem_map.mp found
  rw [String.toList_ofList]
  exact ⟨inside, of_decide_eq_true kept⟩

private theorem infix_of_mem_readWord (mem : symbol ∈ readWord spaced text) :
    symbol.toList <:+: text := by
  have found := (parts_of_mem_readWord mem).1
  cases spaced with
  | true => exact Text.infix_of_mem_fields found
  | false =>
    have part : symbol.toList <:+: (compactSymbols text).flatten := List.infix_of_mem_flatten found
    rwa [flatten_compactSymbols] at part

private theorem compact_of_mem_readWord (mem : symbol ∈ readWord false text) : Compact symbol := by
  have found := (parts_of_mem_readWord mem).1
  cases text with
  | nil => exact absurd found List.not_mem_nil
  | cons c text =>
    exact shape_of_mem_attachPrimes (fun p none => absurd none List.not_mem_nil) found

private theorem legible_of_mem_readWord (unspaced : Unspaced spaced text)
    (mem : symbol ∈ readWord spaced text) :
    LegibleSymbol symbol := by
  obtain ⟨found, visible⟩ := parts_of_mem_readWord mem
  cases spaced with
  | true =>
    obtain ⟨filled, plain⟩ := Text.visible_of_mem_fields found
    exact ⟨filled, plain, visible.1, visible.2⟩
  | false =>
    obtain ⟨c, primes, _, same⟩ := compact_of_mem_readWord mem
    refine ⟨by simp [same], fun c inside => ?_, visible.1, visible.2⟩
    exact unspaced rfl c ((infix_of_mem_readWord mem).subset inside)

end Symbols

section Lines

variable {number : Nat} {texts : List (List Char)} {lines : List RuleLine} {line : RuleLine}
  {spaced : Bool} {productions : List Production} {p : Production} {G : Grammar} {text : String}

def arrow : List Char := ['-', '>']

structure Separate (line : RuleLine) : Prop where
  head : ¬ arrow <:+: line.head
  alternatives : ∀ text ∈ line.alternatives, '|' ∉ text

private theorem not_infix_of_cutAtArrow {text head bodies : List Char}
    (cut : cutAtArrow text = some (head, bodies)) : ¬ arrow <:+: head := by
  unfold cutAtArrow at cut
  split at cut
  · rename_i found
    rw [cut] at found
    exact Text.not_infix_of_cutAtFirst_eq_some found (by decide)
  · rename_i missing
    have within : head <:+: text := ⟨[], ['→'] ++ bodies, by
      rw [Text.append_of_cutAtFirst cut, List.nil_append, List.append_assoc]⟩
    exact fun inside =>
      Text.not_infix_of_cutAtFirst_eq_none missing (by decide) (inside.trans within)

theorem of_readLine {text : List Char} (read : readLine number text = .ok line) :
    line.number = number ∧ Separate line ∧ line.alternatives ≠ [] := by
  unfold readLine at read
  split at read
  · cases read
  · rename_i head bodies cut
    dsimp only at read
    split at read
    · cases read
    · obtain rfl := Except.ok.inj read
      refine ⟨rfl, ⟨fun inside => not_infix_of_cutAtArrow cut (inside.trans (Text.trim_infix head)),
        ?_⟩, ?_⟩
      · intro text mem bar
        obtain ⟨part, found, rfl⟩ := List.mem_map.mp mem
        have plain := Text.separates_of_mem_splitWhere found '|' ((Text.trim_infix part).subset bar)
        exact absurd rfl (of_decide_eq_false plain)
      · exact fun empty => Text.splitWhere_ne_nil _ bodies (List.map_eq_nil_iff.mp empty)

/-- One of the texts, which are numbered from `number` on, is not blank, and reading it has this
result. -/
def LineResult (number : Nat) (texts : List (List Char)) (result : Except Error RuleLine) : Prop :=
  ∃ index text, texts[index]? = some text ∧ Text.trim text ≠ [] ∧
    readLine (number + index) (Text.trim text) = result

private theorem LineResult.cons {result : Except Error RuleLine}
    (later : LineResult (number + 1) texts result) (text : List Char) :
    LineResult number (text :: texts) result := by
  obtain ⟨index, other, found, filled, read⟩ := later
  refine ⟨index + 1, other, found, filled, ?_⟩
  rwa [Nat.add_right_comm number 1 index] at read

theorem readLines_cases (number : Nat) (texts : List (List Char)) :
    (∃ lines, readLines number texts = .ok lines ∧
      ∀ line ∈ lines, LineResult number texts (.ok line)) ∨
    ∃ e, readLines number texts = .error e ∧ LineResult number texts (.error e) := by
  induction texts generalizing number with
  | nil => exact Or.inl ⟨[], rfl, fun line none => absurd none List.not_mem_nil⟩
  | cons text texts ih =>
    unfold readLines
    dsimp only
    split
    · rcases ih (number + 1) with ⟨lines, read, each⟩ | ⟨e, failed, stopped⟩
      · exact Or.inl ⟨lines, read, fun line mem => (each line mem).cons text⟩
      · exact Or.inr ⟨e, failed, stopped.cons text⟩
    · rename_i shown
      have filled : Text.trim text ≠ [] := fun empty => shown (List.isEmpty_iff.mpr empty)
      cases first : readLine number (Text.trim text) with
      | error e => exact Or.inr ⟨e, rfl, 0, text, rfl, filled, first⟩
      | ok line =>
        rcases ih (number + 1) with ⟨lines, read, each⟩ | ⟨e, failed, stopped⟩
        · refine Or.inl ⟨line :: lines, by rw [read],
            List.forall_mem_cons.mpr ⟨?_, fun line mem => ?_⟩⟩
          · exact ⟨0, text, rfl, filled, first⟩
          · exact (each line mem).cons text
        · exact Or.inr ⟨e, by rw [failed], stopped.cons text⟩

theorem lineResult_of_readLines (read : readLines number texts = .ok lines) :
    ∀ line ∈ lines, LineResult number texts (.ok line) := by
  rcases readLines_cases number texts with ⟨found, same, each⟩ | ⟨e, failed, _⟩
  · obtain rfl := Except.ok.inj (same.symm.trans read)
    exact each
  · cases failed.symm.trans read

theorem separate_of_readLines (read : readLines number texts = .ok lines) :
    ∀ line ∈ lines, Separate line := by
  intro line mem
  obtain ⟨_, _, _, _, here⟩ := lineResult_of_readLines read line mem
  exact (of_readLine here).2.1

theorem alternatives_of_readLines (read : readLines number texts = .ok lines) :
    ∀ line ∈ lines, line.alternatives ≠ [] := by
  intro line mem
  obtain ⟨_, _, _, _, here⟩ := lineResult_of_readLines read line mem
  exact (of_readLine here).2.2

private theorem unspaced_of_mem (mem : line ∈ lines) :
    ∀ text ∈ line.head :: line.alternatives, Unspaced (isSpaced lines) text := by
  intro text inside compact c member
  rw [isSpaced, List.any_eq_false] at compact
  have none := compact line mem
  rw [Bool.not_eq_true, List.any_eq_false] at none
  have visible := none text inside
  rw [Bool.not_eq_true, List.any_eq_false] at visible
  exact eq_false_of_ne_true (visible c member)

theorem of_lineProductions_cons (read : lineProductions spaced (line :: lines) = .ok productions) :
    readWord spaced line.head ≠ [] ∧ ∃ rest, lineProductions spaced lines = .ok rest ∧ productions =
      (line.alternatives.map fun text => ⟨readWord spaced line.head, readWord spaced text⟩) ++
      rest := by
  unfold lineProductions at read
  dsimp only at read
  split at read
  · cases read
  · rename_i filled
    cases later : lineProductions spaced lines with
    | error e =>
      rw [later] at read
      cases read
    | ok rest =>
      rw [later] at read
      obtain rfl := Except.ok.inj read
      exact ⟨fun empty => filled (List.isEmpty_iff.mpr empty), rest, rfl, rfl⟩

theorem of_lineProductions (read : lineProductions spaced lines = .ok productions) :
    ∀ p ∈ productions, p.head ≠ [] ∧ ∃ line ∈ lines, ∃ text ∈ line.alternatives,
      p = ⟨readWord spaced line.head, readWord spaced text⟩ := by
  induction lines generalizing productions with
  | nil =>
    obtain rfl := Except.ok.inj read
    exact fun p none => absurd none List.not_mem_nil
  | cons line lines ih =>
    obtain ⟨filled, rest, later, rfl⟩ := of_lineProductions_cons read
    intro p mem
    rcases List.mem_append.mp mem with here | mem
    · obtain ⟨text, inside, rfl⟩ := List.mem_map.mp here
      exact ⟨filled, line, List.mem_cons_self, text, inside, rfl⟩
    · obtain ⟨head, found, member, rest⟩ := ih later p mem
      exact ⟨head, found, List.mem_cons_of_mem line member, rest⟩

structure Legible (p : Production) : Prop where
  head_ne : p.head ≠ []
  symbols : ∀ symbol ∈ p.head ++ p.body, LegibleSymbol symbol
  head_plain : ∀ symbol ∈ p.head, ¬ arrow <:+: symbol.toList
  body_plain : ∀ symbol ∈ p.body, '|' ∉ symbol.toList

theorem Legible.body_visible (legible : Legible p) : Symbol.epsilon ∉ p.body := fun inside =>
  (legible.symbols _ (List.mem_append_right p.head inside)).ne_epsilon rfl

theorem legible_of_lineProductions (separate : ∀ line ∈ lines, Separate line)
    (read : lineProductions (isSpaced lines) lines = .ok productions) :
    ∀ p ∈ productions, Legible p := by
  intro p mem
  obtain ⟨head_ne, line, member, text, alternative, rfl⟩ := of_lineProductions read p mem
  have unspaced := unspaced_of_mem member
  refine ⟨head_ne, ?_, fun symbol mem inside => ?_, fun symbol mem bar => ?_⟩
  · exact List.forall_mem_append.mpr
      ⟨fun symbol mem => legible_of_mem_readWord (unspaced _ List.mem_cons_self) mem,
        fun symbol mem =>
          legible_of_mem_readWord (unspaced _ (List.mem_cons_of_mem line.head alternative)) mem⟩
  · exact (separate line member).head (inside.trans (infix_of_mem_readWord mem))
  · exact (separate line member).alternatives text alternative
      ((infix_of_mem_readWord mem).subset bar)

theorem compact_of_lineProductions (read : lineProductions false lines = .ok productions) :
    ∀ p ∈ productions, ∀ symbol ∈ p.head ++ p.body, Compact symbol := by
  intro p mem
  obtain ⟨_, line, _, text, _, rfl⟩ := of_lineProductions read p mem
  exact List.forall_mem_append.mpr
    ⟨fun _ => compact_of_mem_readWord, fun _ => compact_of_mem_readWord⟩

theorem parse_eq_ok_iff : parse text = .ok G ↔ ∃ lines productions,
    readLines 1 (Text.splitAt '\n' text.toList) = .ok lines ∧
      lineProductions (isSpaced lines) lines = .ok productions ∧
      ofShownProductions productions = .ok G := by
  unfold parse
  cases readLines 1 (Text.splitAt '\n' text.toList) with
  | error e => simp
  | ok lines =>
    cases read : lineProductions (isSpaced lines) lines with
    | error e => simp [read]
    | ok productions => simp [read]

end Lines

end LanguageTheory.Grammar

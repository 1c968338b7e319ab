import Mathlib.Data.List.Perm.Subperm
import LanguageTheory.Proofs.Grammar.LeadingExpansion
import LanguageTheory.Proofs.Grammar.Lookahead

/-!
With what expansions begin. A non-terminal that is being derived is left in place, which is meant
for left recursion. Without left recursion it happens to one kind of non-terminal: one that was
erased and stands next again, while it still counts as being derived. So an expansion begins with a
terminal, or with a non-terminal that can be erased and that stands twice at the front of a derived
word; all expansions of all words are empty or begin with a terminal exactly if no non-terminal can
be erased (`leadingExpansions_exact`).
-/

set_option autoImplicit false
set_option relaxedAutoImplicit false

namespace LanguageTheory.Grammar

variable {G : Grammar} {underway : List Symbol} {head symbol : Symbol}
  {word body rest expansion : Word}

def TerminalLed (G : Grammar) (word : Word) : Prop := ∀ symbol ∈ word.head?, symbol ∈ G.terminals

instance (G : Grammar) (word : Word) : Decidable (G.TerminalLed word) :=
  decidable_of_iff (∀ symbol ∈ word.head?.toList, symbol ∈ G.terminals) (by simp [TerminalLed])

section Stopping

private theorem mem_underway_of_full (distinct : underway.Nodup)
    (inside : ∀ A ∈ underway, A ∈ G.nonTerminals) (full : G.nonTerminals.size ≤ underway.length) :
    ∀ A ∈ G.nonTerminals, A ∈ underway := by
  have part : underway.Subperm G.nonTerminals.toList := List.subperm_of_subset distinct inside
  intro A known
  exact (part.perm_of_length_le full).mem_iff.mpr known

/-- What is kept when a leading head gives way to a body and is underway from then on holds where
the expansion stops, and it stops at no other non-terminals than those underway. -/
private theorem expandLeading_stops {P : List Symbol → Word → Prop}
    (step : ∀ underway head body rest, (head, body) ∈ G.table.productions →
      P underway (head :: rest) → P (head :: underway) (body ++ rest))
    {depth : Nat} (distinct : underway.Nodup) (inside : ∀ A ∈ underway, A ∈ G.nonTerminals)
    (room : G.nonTerminals.size ≤ depth + underway.length) (start : P underway word)
    (mem : expansion ∈ G.expandLeading depth underway word) :
    ∃ stopped, P stopped expansion ∧ ∀ A ∈ expansion.head?, A ∈ G.nonTerminals → A ∈ stopped := by
  induction depth generalizing underway word with
  | zero =>
    obtain rfl := List.mem_singleton.mp mem
    rw [Nat.zero_add] at room
    exact ⟨underway, start, fun A _ known => mem_underway_of_full distinct inside room A known⟩
  | succ depth ih =>
    cases word with
    | nil =>
      obtain rfl := List.mem_singleton.mp mem
      exact ⟨underway, start, fun A first => by cases first⟩
    | cons symbol rest =>
      unfold expandLeading at mem
      split at mem
      · rename_i opened
        obtain ⟨body, production, mem⟩ := List.mem_flatMap.mp mem
        refine ih (List.nodup_cons.mpr ⟨opened.2, distinct⟩)
          (List.forall_mem_cons.mpr ⟨opened.1, inside⟩) ?_
          (step underway symbol body rest (mem_bodiesOf?_iff.mp production) start) mem
        rw [List.length_cons]
        omega
      · rename_i closed
        obtain rfl := List.mem_singleton.mp mem
        refine ⟨underway, start, fun A first known => ?_⟩
        obtain rfl : symbol = A := Option.some.inj first
        exact not_not.mp fun new => closed ⟨known, new⟩

end Stopping

section Fronts

/-- The current word was derived, and each symbol underway has become its front: behind the front
stands what stood behind the symbol, or what has been derived from that since the symbol was
erased. -/
structure Opened (G : Grammar) (word : Word) (underway : List Symbol) (current : Word) : Prop where
  derives : G.Derives word current
  fronts : ∀ A ∈ underway, ∃ front rest, current = front ++ rest ∧ G.DerivesProperly [A] front ∧
    G.Derives word (A :: rest)

private theorem Opened.start (G : Grammar) (word : Word) : Opened G word [] word where
  derives := .refl
  fronts _ mem := absurd mem List.not_mem_nil

private theorem Opened.expand (opened : Opened G word underway (head :: rest))
    (mem : (head, body) ∈ G.table.productions) :
    Opened G word (head :: underway) (body ++ rest) := by
  have step : G.Step [head] body := Step.of_mem (mem_table_iff.mp mem)
  have next : G.Step (head :: rest) (body ++ rest) := step.append_right rest
  refine ⟨opened.derives.tail next, List.forall_mem_cons.mpr ⟨?_, fun A known => ?_⟩⟩
  · exact ⟨body, rest, rfl, .single step, opened.derives⟩
  · obtain ⟨front, behind, same, proper, derivation⟩ := opened.fronts A known
    rcases List.cons_eq_append_iff.mp same with ⟨rfl, rfl⟩ | ⟨front, rfl, rfl⟩
    · exact ⟨[], body ++ rest, rfl, proper, derivation.tail (next.append_left [A])⟩
    · exact ⟨body ++ front, behind, (List.append_assoc ..).symm,
        proper.tail (step.append_right front), derivation⟩

private theorem Opened.erased (opened : Opened G word underway (head :: rest))
    (known : head ∈ underway) (straight : ¬ G.LeftRecursive head) :
    G.Derives [head] [] ∧ G.Derives word (head :: head :: rest) := by
  obtain ⟨front, behind, same, proper, derivation⟩ := opened.fronts head known
  rcases List.cons_eq_append_iff.mp same with ⟨rfl, rfl⟩ | ⟨front, rfl, rfl⟩
  · exact ⟨proper.to_reflTransGen, derivation⟩
  · exact absurd ⟨front, proper⟩ straight

private theorem erased_of_leads (straight : ∀ A ∈ G.nonTerminals, ¬ G.LeftRecursive A)
    (mem : expansion ∈ G.leadingExpansions word) {A : Symbol} (first : expansion.head? = some A)
    (known : A ∈ G.nonTerminals) : G.Derives [A] [] ∧ G.Derives word (A :: expansion) := by
  obtain ⟨stopped, opened, among⟩ := expandLeading_stops (P := Opened G word)
    (fun _ _ _ _ production state => state.expand production) List.nodup_nil
    (fun _ mem => absurd mem List.not_mem_nil) (Nat.le_add_right _ _) (Opened.start G word)
    (OrderedSet.mem_ofList.mp mem)
  obtain ⟨rest, rfl⟩ := List.head?_eq_some_iff.mp first
  exact opened.erased (among A first known) (straight A known)

private theorem WellFormed.expansion_declared (fits : G.WellFormed)
    (mem : expansion ∈ G.leadingExpansions word) (declared : ∀ symbol ∈ word, symbol ∈ G.symbols) :
    ∀ symbol ∈ expansion, symbol ∈ G.symbols := by
  refine expandLeading_induction (P := fun word => ∀ symbol ∈ word, symbol ∈ G.symbols) ?_ declared
    (OrderedSet.mem_ofList.mp mem)
  intro head body rest production all
  exact List.forall_mem_append.mpr
    ⟨fits.body_mem_symbols production, (List.forall_mem_cons.mp all).2⟩

end Fronts

section Erasing

private theorem expandLeading_closed (depth : Nat) (inside : symbol ∈ underway) :
    G.expandLeading depth underway (symbol :: rest) = [symbol :: rest] := by
  cases depth with
  | zero => rfl
  | succ depth => exact if_neg fun opened => opened.2 inside

private theorem mem_expandLeading_of_body {depth : Nat} (known : head ∈ G.nonTerminals)
    (new : head ∉ underway) (production : (head, body) ∈ G.table.productions)
    (mem : expansion ∈ G.expandLeading depth (head :: underway) (body ++ rest)) :
    expansion ∈ G.expandLeading (depth + 1) underway (head :: rest) := by
  have step : G.expandLeading (depth + 1) underway (head :: rest) =
      (((G.bodiesOf? head).map OrderedSet.toList).getD []).flatMap fun body =>
        G.expandLeading depth (head :: underway) (body ++ rest) := if_pos ⟨known, new⟩
  rw [step]
  exact List.mem_flatMap.mpr ⟨body, mem_bodiesOf?_iff.mpr production, mem⟩

private theorem exists_expansion_led (free : G.ContextFree) (depth : Nat) {front : Word}
    {A : Symbol} (vanish : ∀ B ∈ front, G.Vanishes B) (known : A ∈ G.nonTerminals)
    (inside : A ∈ underway) :
    ∃ expansion ∈ G.expandLeading depth underway (front ++ A :: rest),
      ∃ B ∈ G.nonTerminals, expansion.head? = some B := by
  induction depth generalizing underway front with
  | zero =>
    refine ⟨front ++ A :: rest, List.mem_singleton_self _, ?_⟩
    cases front with
    | nil => exact ⟨A, known, rfl⟩
    | cons B front => exact ⟨B, (vanish B List.mem_cons_self).mem free, rfl⟩
  | succ depth ih =>
    cases front with
    | nil =>
      rw [List.nil_append, expandLeading_closed _ inside]
      exact ⟨A :: rest, List.mem_singleton_self _, A, known, rfl⟩
    | cons B front =>
      obtain ⟨gone, later⟩ := List.forall_mem_cons.mp vanish
      have inner := gone.mem free
      by_cases closed : B ∈ underway
      · rw [List.cons_append, expandLeading_closed _ closed]
        exact ⟨B :: (front ++ A :: rest), List.mem_singleton_self _, B, inner, rfl⟩
      · obtain ⟨body, production, all⟩ := vanishes_iff.mp gone
        have unfolded : ∀ C ∈ body ++ front, G.Vanishes C := List.forall_mem_append.mpr ⟨all, later⟩
        obtain ⟨expansion, mem, led⟩ := ih unfolded (List.mem_cons_of_mem B inside)
        rw [List.append_assoc] at mem
        exact ⟨expansion, mem_expandLeading_of_body inner closed production mem, led⟩

private theorem exists_expansion_of_erasable (free : G.ContextFree) {A : Symbol}
    (vanish : G.Vanishes A) :
    ∃ expansion ∈ G.leadingExpansions [A, A], ∃ B ∈ G.nonTerminals, expansion.head? = some B := by
  have known := vanish.mem free
  obtain ⟨body, production, all⟩ := vanishes_iff.mp vanish
  obtain ⟨depth, size⟩ : ∃ depth, G.nonTerminals.size = depth + 1 :=
    Nat.exists_eq_succ_of_ne_zero (List.length_pos_of_mem known).ne'
  have inside : A ∈ [A] := List.mem_cons_self
  obtain ⟨expansion, mem, led⟩ := exists_expansion_led free depth all known inside
  refine ⟨expansion, OrderedSet.mem_ofList.mpr ?_, led⟩
  rw [size]
  exact mem_expandLeading_of_body known List.not_mem_nil production mem

end Erasing

section Law

/-- In a grammar without left recursion an expansion is empty, or begins with a terminal, or begins
with a non-terminal that can be erased and stands in front of the expansion in a word derived
before. All expansions of all words are empty or begin with a terminal exactly if no non-terminal
can be erased. -/
theorem leadingExpansions_exact (fits : G.WellFormed) (free : G.ContextFree) (disjoint : G.Disjoint)
    (straight : ∀ A ∈ G.nonTerminals, ¬ G.LeftRecursive A) :
    (∀ word : Word, (∀ symbol ∈ word, symbol ∈ G.symbols) → ∀ expansion ∈ G.leadingExpansions word,
      G.TerminalLed expansion ∨ ∃ A ∈ G.nonTerminals, expansion.head? = some A ∧ G.Derives [A] [] ∧
        G.Derives word (A :: expansion)) ∧
    ((∀ word : Word, (∀ symbol ∈ word, symbol ∈ G.symbols) → ∀ expansion ∈ G.leadingExpansions word,
      G.TerminalLed expansion) ↔ ∀ A ∈ G.nonTerminals, ¬ G.Derives [A] []) := by
  have cases (word : Word) (declared : ∀ symbol ∈ word, symbol ∈ G.symbols) (expansion : Word)
      (mem : expansion ∈ G.leadingExpansions word) : G.TerminalLed expansion ∨
        ∃ A ∈ G.nonTerminals, expansion.head? = some A ∧ G.Derives [A] [] ∧
          G.Derives word (A :: expansion) := by
    by_cases led : ∃ A ∈ G.nonTerminals, expansion.head? = some A
    · obtain ⟨A, known, first⟩ := led
      exact Or.inr ⟨A, known, first, erased_of_leads straight mem first known⟩
    · refine Or.inl fun symbol first => ?_
      have inside := fits.expansion_declared mem declared symbol (List.mem_of_mem_head? first)
      exact (List.mem_append.mp inside).resolve_left fun known => led ⟨symbol, known, first⟩
  refine ⟨cases, fun all A known erased => ?_, fun solid word declared expansion mem => ?_⟩
  · have vanish : G.Vanishes A := (derives_nil_iff free).mp erased A (List.mem_singleton_self A)
    obtain ⟨expansion, mem, B, inner, first⟩ := exists_expansion_of_erasable free vanish
    have declared : ∀ symbol ∈ [A, A], symbol ∈ G.symbols := by
      simp [mem_symbols_of_nonTerminal known]
    exact disjoint B inner (all [A, A] declared expansion mem B first)
  · refine (cases word declared expansion mem).resolve_right ?_
    rintro ⟨A, known, _, erased, _⟩
    exact solid A known erased

/-- When the first `A` and then `B` have been erased, the second `A` is left in place. -/
theorem leadingExpansions_exact_repeated_front :
    ∃ G, ofProductions (OrderedSet.ofList ["S", "A", "B"]) (OrderedSet.ofList ["a", "b"]) "S"
        [⟨["S"], ["A", "B", "A", "b"]⟩, ⟨["A"], []⟩, ⟨["A"], ["a"]⟩, ⟨["B"], []⟩] = .ok G ∧
      G.WellFormed ∧ G.ContextFree ∧ G.Disjoint ∧ (∀ A ∈ G.nonTerminals, ¬ G.LeftRecursive A) ∧
      ["A", "b"] ∈ G.leadingExpansions ["S"] ∧ ["a", "B", "A", "b"] ∈ G.leadingExpansions ["S"] ∧
      G.Derives ["A"] [] ∧ G.Derives ["S"] ["A", "A", "b"] := by
  obtain ⟨G, built, free, disjoint, lower, declared, stays, other, unled⟩ :
      ∃ G, ofProductions (OrderedSet.ofList ["S", "A", "B"]) (OrderedSet.ofList ["a", "b"]) "S"
          [⟨["S"], ["A", "B", "A", "b"]⟩, ⟨["A"], []⟩, ⟨["A"], ["a"]⟩, ⟨["B"], []⟩] = .ok G ∧
        G.ContextFree ∧ G.Disjoint ∧
        (∀ p ∈ G.table.productions, ∀ symbol ∈ p.2,
          ["b", "a", "B", "A", "S"].idxOf symbol < ["b", "a", "B", "A", "S"].idxOf p.1) ∧
        (∀ symbol ∈ ["S"], symbol ∈ G.symbols) ∧ ["A", "b"] ∈ G.leadingExpansions ["S"] ∧
        ["a", "B", "A", "b"] ∈ G.leadingExpansions ["S"] ∧ ¬ G.TerminalLed ["A", "b"] :=
    ⟨_, rfl, by decide, by decide, by decide, by decide, by decide, by decide, by decide⟩
  have fits := wellFormed_of_ofProductions built
  have straight (A : Symbol) (_ : A ∈ G.nonTerminals) := not_leftRecursive_of_lower free _ lower A
  obtain ⟨cases, _⟩ := leadingExpansions_exact fits free disjoint straight
  obtain ⟨A, _, first, erased, derivation⟩ :=
    (cases ["S"] declared ["A", "b"] stays).resolve_left unled
  obtain rfl : "A" = A := Option.some.inj first
  exact ⟨G, built, fits, free, disjoint, straight, stays, other, erased, derivation⟩

/-- The second `A` of `A A a` is left in place, though no symbol is left recursive. -/
theorem not_forall_terminalLed :
    ¬ ∀ (nonTerminals terminals : Alphabet) (start : Symbol) (productions : List Production)
      (G : Grammar),
      ofProductions nonTerminals terminals start productions = .ok G → G.ContextFree → G.Disjoint →
        (∀ A ∈ G.nonTerminals, ¬ G.LeftRecursive A) → ∀ word : Word,
          (∀ symbol ∈ word, symbol ∈ G.symbols) → ∀ expansion ∈ G.leadingExpansions word,
            G.TerminalLed expansion := by
  intro led
  obtain ⟨G, built, free, disjoint, lower, declared, stays, unled⟩ :
      ∃ G, ofProductions (OrderedSet.ofList ["S", "A"]) (OrderedSet.ofList ["a"]) "S"
          [⟨["S"], ["A", "A", "a"]⟩, ⟨["A"], []⟩] = .ok G ∧ G.ContextFree ∧ G.Disjoint ∧
        (∀ p ∈ G.table.productions, ∀ symbol ∈ p.2,
          ["a", "A", "S"].idxOf symbol < ["a", "A", "S"].idxOf p.1) ∧
        (∀ symbol ∈ ["A", "A", "a"], symbol ∈ G.symbols) ∧
        ["A", "a"] ∈ G.leadingExpansions ["A", "A", "a"] ∧ ¬ G.TerminalLed ["A", "a"] :=
    ⟨_, rfl, by decide, by decide, by decide, by decide, by decide, by decide⟩
  have straight (A : Symbol) (_ : A ∈ G.nonTerminals) := not_leftRecursive_of_lower free _ lower A
  exact unled (led _ _ _ _ G built free disjoint straight _ declared _ stays)

end Law

end LanguageTheory.Grammar

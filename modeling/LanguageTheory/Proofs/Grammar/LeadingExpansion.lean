import LanguageTheory.Grammar.LeftFactoring
import LanguageTheory.Proofs.Grammar.RuleTable

/-!
Deriving the leading non-terminals of a body. Whatever is left in place because it is being derived
already, each word of terminals that a body derives is derived from one of its expansions
(`Exposes`). So bodies may give way to their expansions, all at once and with expansions taken from
the old grammar.
-/

set_option autoImplicit false
set_option relaxedAutoImplicit false

namespace LanguageTheory.Grammar

variable {G : Grammar}

section Expansions

variable {depth : Nat} {underway : List Symbol} {word expansion : Word}

theorem mem_bodiesOf?_iff {head : Symbol} {body : Word} :
    body ∈ ((G.bodiesOf? head).map OrderedSet.toList).getD [] ↔
      (head, body) ∈ G.table.productions := by
  rw [mem_table_iff, Rules.mem_productions_iff, Rules.bodies, bodiesOf?]
  cases G.rules.get? [head] with
  | none => exact iff_of_false List.not_mem_nil (OrderedSet.not_mem_empty body)
  | some bodies => rfl

theorem expandLeading_induction {P : Word → Prop}
    (keep : ∀ head body rest, (head, body) ∈ G.table.productions → P (head :: rest) →
      P (body ++ rest))
    (start : P word) (mem : expansion ∈ G.expandLeading depth underway word) : P expansion := by
  induction depth generalizing underway word with
  | zero => exact List.mem_singleton.mp mem ▸ start
  | succ depth ih =>
    cases word with
    | nil => exact List.mem_singleton.mp mem ▸ start
    | cons symbol rest =>
      unfold expandLeading at mem
      split at mem
      · obtain ⟨body, production, mem⟩ := List.mem_flatMap.mp mem
        exact ih (keep symbol body rest (mem_bodiesOf?_iff.mp production) start) mem
      · exact List.mem_singleton.mp mem ▸ start

private theorem derives_of_mem_expandLeading
    (mem : expansion ∈ G.expandLeading depth underway word) :
    G.Derives word expansion := by
  refine expandLeading_induction (fun head body rest production derivation => ?_) .refl mem
  exact derivation.trans ((Derives.of_production production).append_right rest)

private theorem expandLeading_cases (G : Grammar) (depth : Nat) (underway : List Symbol)
    (word : Word) :
    word ∈ G.expandLeading depth underway word ∨
      ∃ symbol rest, word = symbol :: rest ∧ symbol ∈ G.nonTerminals ∧ ∃ depth' underway',
        ∀ body, (symbol, body) ∈ G.table.productions →
          ∀ expansion ∈ G.expandLeading depth' underway' (body ++ rest),
            expansion ∈ G.expandLeading depth underway word := by
  cases depth with
  | zero => exact Or.inl List.mem_cons_self
  | succ depth =>
    cases word with
    | nil => exact Or.inl List.mem_cons_self
    | cons symbol rest =>
      by_cases derived : symbol ∈ G.nonTerminals ∧ symbol ∉ underway
      · have step : G.expandLeading (depth + 1) underway (symbol :: rest) =
            (((G.bodiesOf? symbol).map OrderedSet.toList).getD []).flatMap fun body =>
              G.expandLeading depth (symbol :: underway) (body ++ rest) := if_pos derived
        rw [step]
        refine Or.inr ⟨symbol, rest, rfl, derived.1, depth, symbol :: underway, ?_⟩
        intro body production expansion mem
        exact List.mem_flatMap.mpr ⟨body, mem_bodiesOf?_iff.mpr production, mem⟩
      · have step : G.expandLeading (depth + 1) underway (symbol :: rest) = [symbol :: rest] :=
          if_neg derived
        rw [step]
        exact Or.inl List.mem_cons_self

end Expansions

section Exposed

variable {head : Symbol} {body source word : Word}

private theorem mem_exposeBodies {bodies : OrderedSet Word} (mem : body ∈ G.exposeBodies bodies) :
    ∃ source ∈ bodies, body = source ∨ body ∈ G.leadingExpansions source := by
  obtain ⟨source, member, mem⟩ := List.mem_flatMap.mp (OrderedSet.mem_ofList.mp mem)
  split at mem
  · exact ⟨source, member, Or.inr mem⟩
  · exact ⟨source, member, Or.inl (List.mem_singleton.mp mem)⟩

private theorem exposeBodies_cases {bodies : OrderedSet Word} (mem : source ∈ bodies) :
    source ∈ G.exposeBodies bodies ∨
      ∀ expansion ∈ G.leadingExpansions source, expansion ∈ G.exposeBodies bodies := by
  by_cases hidden : G.startsWithNonTerminal source = true ∧
      ∃ other ∈ bodies.toList, other ≠ source ∧ G.LeadsClash source other
  · refine Or.inr fun expansion member => OrderedSet.mem_ofList.mpr ?_
    refine List.mem_flatMap.mpr ⟨source, mem, ?_⟩
    rw [if_pos hidden]
    exact member
  · refine Or.inl (OrderedSet.mem_ofList.mpr (List.mem_flatMap.mpr ⟨source, mem, ?_⟩))
    rw [if_neg hidden]
    exact List.mem_singleton_self source

private theorem mem_exposed (mem : (head, body) ∈ G.exposed.table.productions) :
    ∃ source, (head, source) ∈ G.table.productions ∧
      (body = source ∨ body ∈ G.leadingExpansions source) := by
  obtain ⟨bodies, found, member⟩ :=
    RuleTable.mem_bodies_mapValues.mp (mem_table_withTable.mp mem)
  obtain ⟨source, old, origin⟩ := mem_exposeBodies member
  exact ⟨source, mem_bodies_table_iff.mp (RuleTable.mem_bodies_iff.mpr ⟨bodies, found, old⟩),
    origin⟩

private theorem exposed_cases (mem : (head, source) ∈ G.table.productions) :
    (head, source) ∈ G.exposed.table.productions ∨
      ∀ expansion ∈ G.leadingExpansions source,
      (head, expansion) ∈ G.exposed.table.productions := by
  obtain ⟨bodies, found, member⟩ := RuleTable.mem_bodies_iff.mp (mem_bodies_table_iff.mpr mem)
  have stored {body : Word} (now : body ∈ G.exposeBodies bodies) :
      (head, body) ∈ G.exposed.table.productions :=
    mem_table_withTable.mpr (RuleTable.mem_bodies_mapValues.mpr ⟨bodies, found, now⟩)
  exact (exposeBodies_cases member).imp stored fun all expansion inside =>
    stored (all expansion inside)

/-- The exposed grammar derives the second word from the first one, and it can begin with an
expansion of any front of the first word. -/
structure Exposes (G : Grammar) (stack word : Word) : Prop where
  derives : G.exposed.Derives stack word
  fronts : ∀ depth underway front back, stack = front ++ back →
    ∃ expansion ∈ G.expandLeading depth underway front, G.exposed.Derives (expansion ++ back) word

variable {stack : Word}

private theorem exposes_nil (G : Grammar) : G.Exposes [] [] := by
  refine ⟨.refl, fun depth underway front back whole => ?_⟩
  obtain ⟨rfl, rfl⟩ := List.append_eq_nil_iff.mp whole.symm
  rcases expandLeading_cases G depth underway [] with self | ⟨_, _, whole, _⟩
  · exact ⟨[], self, .refl⟩
  · cases whole

private theorem Exposes.keep {symbol : Symbol} (final : symbol ∉ G.nonTerminals)
    (rest : G.Exposes stack word) :
    G.Exposes (symbol :: stack) (symbol :: word) := by
  have kept : G.exposed.Derives (symbol :: stack) (symbol :: word) :=
    rest.derives.append_left [symbol]
  refine ⟨kept, fun depth underway front back whole => ?_⟩
  rcases expandLeading_cases G depth underway front with self | ⟨_, _, rfl, known, _⟩
  · exact ⟨front, self, whole ▸ kept⟩
  · cases whole
    exact absurd known final

private theorem Exposes.expand (member : (head, body) ∈ G.table.productions)
    (rest : G.Exposes (body ++ stack) word) : G.Exposes (head :: stack) word := by
  have whole : G.exposed.Derives (head :: stack) word := by
    rcases exposed_cases member with stays | gone
    · exact ((Derives.of_production stays).append_right stack).trans rest.derives
    · obtain ⟨expansion, mem, later⟩ := rest.fronts G.nonTerminals.size [] body stack rfl
      have step := Derives.of_production (gone expansion (OrderedSet.mem_ofList.mpr mem))
      exact (step.append_right stack).trans later
  refine ⟨whole, fun depth underway front back same => ?_⟩
  rcases expandLeading_cases G depth underway front with self |
    ⟨_, tail, rfl, _, depth', underway', all⟩
  · exact ⟨front, self, same ▸ whole⟩
  · cases same
    obtain ⟨expansion, mem, later⟩ :=
      rest.fronts depth' underway' (body ++ tail) back (List.append_assoc body tail back).symm
    exact ⟨expansion, all body member expansion mem, later⟩

private theorem exposes_of_yields (yields : G.Yields stack word)
    (final : ∀ symbol ∈ word, symbol ∉ G.nonTerminals) : G.Exposes stack word := by
  induction yields with
  | nil => exact exposes_nil G
  | keep symbol _ ih =>
    obtain ⟨here, later⟩ := List.forall_mem_cons.mp final
    exact (ih later).keep here
  | expand member _ ih => exact (ih final).expand member

theorem derives_exposed_iff (free : G.ContextFree) {u : Word}
    (final : ∀ symbol ∈ word, symbol ∉ G.nonTerminals) :
    G.exposed.Derives u word ↔ G.Derives u word := by
  constructor
  · refine Derives.of_productions (contextFree_withTable G _) fun head body mem => ?_
    obtain ⟨source, old, rfl | expansion⟩ := mem_exposed mem
    · exact .of_production old
    · exact (Derives.of_production old).trans
        (derives_of_mem_expandLeading (OrderedSet.mem_ofList.mp expansion))
  · exact fun derivation =>
      (exposes_of_yields ((derives_iff_yields free).mp derivation) final).derives

private theorem symbol_of_exposed (mem : (head, body) ∈ G.exposed.table.productions)
    {symbol : Symbol} (inside : symbol ∈ body) :
    ∃ head body, (head, body) ∈ G.table.productions ∧ symbol ∈ body := by
  obtain ⟨source, old, rfl | expansion⟩ := mem_exposed mem
  · exact ⟨head, body, old, inside⟩
  · refine expandLeading_induction (P := fun word => ∀ symbol ∈ word, ∃ head body,
      (head, body) ∈ G.table.productions ∧ symbol ∈ body)
        (fun first front rest production all => ?_) ?_
      (OrderedSet.mem_ofList.mp expansion) symbol inside
    · rw [List.forall_mem_append]
      exact ⟨fun symbol inside => ⟨first, front, production, inside⟩,
        (List.forall_mem_cons.mp all).2⟩
    · exact fun symbol inside => ⟨head, source, old, inside⟩

theorem wellFormed_exposed (fits : G.WellFormed) (free : G.ContextFree) : G.exposed.WellFormed :=
  fits.mapValues free fun _ _ mem _ inside => symbol_of_exposed mem inside

theorem separated_exposed (apart : G.Separated) : G.exposed.Separated :=
  apart.mapValues fun _ _ mem _ inside => symbol_of_exposed mem inside

end Exposed

end LanguageTheory.Grammar

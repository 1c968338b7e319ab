import LanguageTheory.Grammar.Derivation
import LanguageTheory.Proofs.Grammar.First

/-!
Derivations from left to right. A word yields another when its first symbol is either kept for good
or replaced by a body that is then dealt with in the same way. Every derivation of a context-free
grammar can be put into this order (`derives_iff_yields`), in which it shows what vanishes and what
a derived word begins with.
-/

set_option autoImplicit false
set_option relaxedAutoImplicit false

namespace LanguageTheory.Grammar

variable {G : Grammar}

theorem Disjoint.outside (disjoint : G.Disjoint) {word : Word} (terminals : G.IsTerminalWord word) :
    ∀ symbol ∈ word, symbol ∉ G.nonTerminals :=
  fun symbol mem known => disjoint symbol known (terminals symbol mem)

/-- The second word is derived from the first one from left to right. -/
inductive Yields (G : Grammar) : Word → Word → Prop
  | nil : Yields G [] []
  | keep (symbol : Symbol) {stack word : Word} (rest : Yields G stack word) :
      Yields G (symbol :: stack) (symbol :: word)
  | expand {head : Symbol} {body stack word : Word} (member : (head, body) ∈ G.table.productions)
      (rest : Yields G (body ++ stack) word) : Yields G (head :: stack) word

private theorem Yields.refl (G : Grammar) (word : Word) : G.Yields word word := by
  induction word with
  | nil => exact .nil
  | cons symbol word ih => exact .keep symbol ih

private theorem Yields.fold {head : Symbol} {body before after word : Word}
    (member : (head, body) ∈ G.table.productions)
    (yields : G.Yields (before ++ (body ++ after)) word) :
    G.Yields (before ++ head :: after) word := by
  generalize whole : before ++ (body ++ after) = stack at yields
  induction yields generalizing before with
  | nil =>
    obtain ⟨rfl, empty⟩ := List.append_eq_nil_iff.mp whole
    refine .expand member ?_
    rw [empty]
    exact .nil
  | keep symbol rest ih =>
    cases before with
    | nil => exact .expand member (whole ▸ .keep symbol rest)
    | cons first before =>
      obtain ⟨rfl, rfl⟩ := List.cons.inj whole
      exact .keep first (ih rfl)
  | expand other rest ih =>
    cases before with
    | nil => exact .expand member (whole ▸ .expand other rest)
    | cons first before =>
      obtain ⟨rfl, rfl⟩ := List.cons.inj whole
      have inner := ih (List.append_assoc _ before _)
      rw [List.append_assoc] at inner
      exact .expand other inner

theorem Yields.derives {u v : Word} (yields : G.Yields u v) : G.Derives u v := by
  induction yields with
  | nil => exact .refl
  | keep symbol _ ih => exact ih.append_left [symbol]
  | expand member _ ih =>
    exact .head ((Step.of_mem (mem_table_iff.mp member)).append_right _) ih

theorem derives_iff_yields (free : G.ContextFree) {u v : Word} : G.Derives u v ↔ G.Yields u v := by
  refine ⟨fun derivation => ?_, Yields.derives⟩
  induction derivation using Relation.ReflTransGen.head_induction_on with
  | refl => exact Yields.refl G v
  | head step _ ih =>
    obtain ⟨head, body, before, after, member, rfl, rfl⟩ := free.exists_of_step step
    rw [List.append_assoc] at ih ⊢
    exact ih.fold member

theorem step_single_iff (free : G.ContextFree) {symbol : Symbol} {word : Word} :
    G.Step [symbol] word ↔ (symbol, word) ∈ G.table.productions := by
  constructor
  · intro step
    obtain ⟨head, body, before, after, member, whole, rfl⟩ := free.exists_of_step step
    rw [List.append_assoc, List.singleton_append, eq_comm, List.append_eq_singleton_iff] at whole
    obtain ⟨rfl, same⟩ | ⟨_, none⟩ := whole
    · obtain ⟨rfl, rfl⟩ := List.cons.inj same
      rwa [List.nil_append, List.append_nil]
    · cases none
  · exact fun mem => Step.of_mem (mem_table_iff.mp mem)

theorem Yields.vanishes {stack : Word} (yields : G.Yields stack []) :
    ∀ symbol ∈ stack, G.Vanishes symbol := by
  generalize nothing : ([] : Word) = word at yields
  induction yields with
  | nil => exact fun symbol mem => absurd mem List.not_mem_nil
  | keep symbol _ _ => cases nothing
  | expand member _ ih =>
    obtain ⟨body, rest⟩ := List.forall_mem_append.mp (ih nothing)
    exact List.forall_mem_cons.mpr ⟨vanishes_iff.mpr ⟨_, member, body⟩, rest⟩

theorem derives_nil {u : Word} (each : ∀ symbol ∈ u, G.Derives [symbol] []) : G.Derives u [] := by
  induction u with
  | nil => exact .refl
  | cons symbol u ih =>
    obtain ⟨here, later⟩ := List.forall_mem_cons.mp each
    exact here.append (ih later)

theorem Vanishes.derives {symbol : Symbol} (vanish : G.Vanishes symbol) :
    G.Derives [symbol] [] := by
  obtain ⟨height, now⟩ := vanish
  induction height generalizing symbol with
  | zero => exact now.elim
  | succ height ih =>
    obtain ⟨body, mem, all⟩ := now
    have rest := derives_nil fun other inside => ih (all other inside)
    exact .head (Step.of_mem (mem_table_iff.mp mem)) rest

theorem Yields.begins {stack word : Word} {t : Symbol} (yields : G.Yields stack (t :: word))
    (terminal : t ∉ G.nonTerminals) : G.Begins t stack := by
  generalize first : t :: word = whole at yields
  induction yields with
  | nil => cases first
  | keep symbol _ _ =>
    obtain ⟨rfl, _⟩ := List.cons.inj first
    exact Or.inl (leads_iff.mpr (Or.inl ⟨rfl, terminal⟩))
  | expand member _ ih =>
    rcases fronted_append.mp (ih first) with body | ⟨vanish, rest⟩
    · exact Or.inl (leads_iff.mpr (Or.inr ⟨_, member, body⟩))
    · exact Or.inr ⟨vanishes_iff.mpr ⟨_, member, vanish⟩, rest⟩

end LanguageTheory.Grammar

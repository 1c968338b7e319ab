import LanguageTheory.Proofs.Grammar.Yields

/-!
Left corners. A symbol is a left corner of a head if some body of the head has it behind symbols
that vanish. A word that is derived can only begin with what left corners lead to, so a symbol that
is left recursive lies on a cycle of left corners (`LeftRecursive.cycle`), whether the recursion is
direct, goes through other symbols or hides behind symbols that vanish.
-/

set_option autoImplicit false
set_option relaxedAutoImplicit false

namespace LanguageTheory.Grammar

variable {G : Grammar}

def LeftCorner (G : Grammar) (head corner : Symbol) : Prop :=
  ∃ before after, (head, before ++ corner :: after) ∈ G.table.productions ∧
    ∀ symbol ∈ before, G.Vanishes symbol

theorem split_append {before after left right : Word} {symbol : Symbol}
    (same : before ++ symbol :: after = left ++ right) :
    (∃ rest, left = before ++ symbol :: rest ∧ after = rest ++ right) ∨
      ∃ front, before = left ++ front ∧ right = front ++ symbol :: after := by
  rcases List.append_eq_append_iff.mp same with ⟨middle, rfl, shape⟩ | ⟨front, rfl, shape⟩
  · rcases List.cons_eq_append_iff.mp shape with ⟨rfl, rfl⟩ | ⟨rest, rfl, rfl⟩
    · exact Or.inr ⟨[], by simp, rfl⟩
    · exact Or.inl ⟨rest, rfl, rfl⟩
  · exact Or.inr ⟨front, rfl, shape⟩

theorem split_trichotomy {before after front back : Word} {a b : Symbol}
    (same : before ++ a :: after = front ++ b :: back) : (before = front ∧ a = b ∧ after = back) ∨
      (∃ middle, front = before ++ a :: middle ∧ after = middle ++ b :: back) ∨
      ∃ middle, before = front ++ b :: middle ∧ back = middle ++ a :: after := by
  rcases split_append same with ⟨middle, rfl, rfl⟩ | ⟨middle, rfl, shape⟩
  · exact Or.inr (Or.inl ⟨middle, rfl, rfl⟩)
  · rcases List.cons_eq_append_iff.mp shape with ⟨rfl, first⟩ | ⟨rest, rfl, rfl⟩
    · obtain ⟨rfl, rfl⟩ := List.cons.inj first
      exact Or.inl ⟨List.append_nil front, rfl, rfl⟩
    · exact Or.inr (Or.inr ⟨rest, rfl, rfl⟩)

theorem fronted_iff_split {vanishes leads : Symbol → Prop} {word : Word} :
    Fronted vanishes leads word ↔ ∃ before symbol after, word = before ++ symbol :: after ∧
      (∀ other ∈ before, vanishes other) ∧ leads symbol := by
  induction word with
  | nil => simp [Fronted]
  | cons first rest ih =>
    rw [Fronted, ih]
    constructor
    · rintro (lead | ⟨vanish, before, symbol, after, rfl, all, lead⟩)
      · exact ⟨[], first, rest, rfl, fun _ mem => absurd mem List.not_mem_nil, lead⟩
      · exact ⟨first :: before, symbol, after, rfl, List.forall_mem_cons.mpr ⟨vanish, all⟩, lead⟩
    · rintro ⟨_ | ⟨other, before⟩, symbol, after, same, all, lead⟩
      · obtain ⟨rfl, rfl⟩ := List.cons.inj same
        exact Or.inl lead
      · obtain ⟨rfl, rfl⟩ := List.cons.inj same
        obtain ⟨vanish, all⟩ := List.forall_mem_cons.mp all
        exact Or.inr ⟨vanish, before, symbol, after, rfl, all, lead⟩

/-- What begins a derived word is reached by left corners from a symbol of the word before, and the
symbols ahead of that one vanish. -/
private theorem Yields.leftCorner {stack word : Word} {symbol : Symbol}
    (yields : G.Yields stack (symbol :: word)) :
    Fronted G.Vanishes (fun other => Relation.ReflTransGen G.LeftCorner other symbol) stack := by
  generalize first : symbol :: word = whole at yields
  induction yields with
  | nil => cases first
  | keep other _ _ =>
    obtain ⟨rfl, _⟩ := List.cons.inj first
    exact Or.inl .refl
  | @expand head body stack whole member _ ih =>
    rcases fronted_append.mp (ih first) with inside | ⟨vanish, rest⟩
    · obtain ⟨before, corner, after, rfl, all, way⟩ := fronted_iff_split.mp inside
      exact Or.inl (way.head ⟨before, after, member, all⟩)
    · exact Or.inr ⟨vanishes_iff.mpr ⟨_, member, vanish⟩, rest⟩

theorem LeftRecursive.cycle (free : G.ContextFree) {symbol : Symbol}
    (recursive : G.LeftRecursive symbol) : Relation.TransGen G.LeftCorner symbol symbol := by
  obtain ⟨rest, derivation⟩ := recursive
  obtain ⟨body, step, later⟩ := Relation.TransGen.head'_iff.mp derivation
  have fronted := ((derives_iff_yields free).mp later).leftCorner
  obtain ⟨before, corner, after, rfl, all, way⟩ := fronted_iff_split.mp fronted
  exact .head' ⟨before, after, (step_single_iff free).mp step, all⟩ way

/-- Symbols that get lower from every head to its bodies are not left recursive. -/
theorem not_leftRecursive_of_lower (free : G.ContextFree) (height : Symbol → Nat)
    (lower : ∀ p ∈ G.table.productions, ∀ symbol ∈ p.2, height symbol < height p.1) (A : Symbol) :
    ¬ G.LeftRecursive A := by
  intro recursive
  have below {a b : Symbol} (corner : G.LeftCorner a b) : height b < height a := by
    obtain ⟨before, after, production, _⟩ := corner
    exact lower _ production b (List.mem_append_right before List.mem_cons_self)
  have down {a b : Symbol} (way : Relation.TransGen G.LeftCorner a b) : height b < height a := by
    induction way with
    | single first => exact below first
    | tail _ last ih => exact (below last).trans ih
  exact Nat.lt_irrefl _ (down (recursive.cycle free))

end LanguageTheory.Grammar

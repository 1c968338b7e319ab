import LanguageTheory.Proofs.Grammar.Yields

/-!
Interpretations of symbols by words. If an interpretation gives the head of every production what it
gives the body, it gives a word all that it gives the words derived from it (`Spelled.of_derives`).
So two grammars are compared by one look at each production: the interpretation of a symbol of one
grammar is what the other grammar derives from it.
-/

set_option autoImplicit false
set_option relaxedAutoImplicit false

namespace LanguageTheory.Grammar

variable {G : Grammar} {means : Symbol → Word → Prop}

/-- The word consists of what the symbols of another word mean, in order. -/
def Spelled (means : Symbol → Word → Prop) : Word → Word → Prop
  | [], word => word = []
  | symbol :: rest, word => ∃ front back, word = front ++ back ∧ means symbol front ∧
      Spelled means rest back

theorem spelled_singleton {symbol : Symbol} {word : Word} :
    Spelled means [symbol] word ↔ means symbol word := by
  simp [Spelled]

theorem spelled_append {u v word : Word} : Spelled means (u ++ v) word ↔
    ∃ front back, word = front ++ back ∧ Spelled means u front ∧ Spelled means v back := by
  induction u generalizing word with
  | nil => simp [Spelled]
  | cons symbol u ih =>
    simp only [List.cons_append, Spelled, ih]
    constructor
    · rintro ⟨first, _, rfl, here, front, back, rfl, left, right⟩
      exact ⟨first ++ front, back, (List.append_assoc ..).symm,
        ⟨first, front, rfl, here, left⟩, right⟩
    · rintro ⟨_, back, rfl, ⟨first, front, rfl, here, left⟩, right⟩
      exact ⟨first, front ++ back, List.append_assoc .., here, front, back, rfl, left, right⟩

theorem spelled_self {word : Word} (kept : ∀ symbol ∈ word, means symbol [symbol]) :
    Spelled means word word := by
  induction word with
  | nil => rfl
  | cons symbol word ih =>
    obtain ⟨here, later⟩ := List.forall_mem_cons.mp kept
    exact ⟨[symbol], word, rfl, here, ih later⟩

theorem Spelled.forall {P : Symbol → Prop} {u word : Word} (spelled : Spelled means u word)
    (each : ∀ symbol v, means symbol v → P symbol) : ∀ symbol ∈ u, P symbol := by
  induction u generalizing word with
  | nil => exact fun symbol mem => absurd mem List.not_mem_nil
  | cons symbol u ih =>
    obtain ⟨front, back, rfl, here, later⟩ := spelled
    exact List.forall_mem_cons.mpr ⟨each symbol front here, ih later⟩

theorem Spelled.derives {u word : Word} (spelled : Spelled means u word)
    (derive : ∀ symbol ∈ u, ∀ v, means symbol v → G.Derives [symbol] v) : G.Derives u word := by
  induction u generalizing word with
  | nil =>
    obtain rfl : word = [] := spelled
    exact .refl
  | cons symbol u ih =>
    obtain ⟨front, back, rfl, here, later⟩ := spelled
    obtain ⟨first, rest⟩ := List.forall_mem_cons.mp derive
    exact (first front here).append (ih later rest)

theorem Spelled.of_derives (free : G.ContextFree)
    (closed : ∀ head body, (head, body) ∈ G.table.productions →
      ∀ word, Spelled means body word → means head word)
    {u v word : Word} (derivation : G.Derives u v) (spelled : Spelled means v word) :
    Spelled means u word := by
  induction derivation using Relation.ReflTransGen.head_induction_on with
  | refl => exact spelled
  | head step _ ih =>
    obtain ⟨head, body, before, after, member, rfl, rfl⟩ := free.exists_of_step step
    obtain ⟨_, back, rfl, left, right⟩ := spelled_append.mp ih
    obtain ⟨front, middle, rfl, left, inner⟩ := spelled_append.mp left
    refine spelled_append.mpr ⟨_, back, rfl, ?_, right⟩
    exact spelled_append.mpr ⟨front, middle, rfl, left,
      spelled_singleton.mpr (closed head body member middle inner)⟩

/-- What is derived from the symbol in such a way that the symbol first becomes one of given
words. -/
def MeansThrough (H : Grammar) (starts : Symbol → Word → Prop) (symbol : Symbol) (word : Word) :
    Prop :=
  ∃ begun, starts symbol begun ∧ H.Derives begun word

/-- A grammar derives what another one does if the body of every production of the other one is
among the words that the head can first become, or only lengthens what its own first symbol can
become. -/
theorem Derives.of_starts {H : Grammar} (starts : Symbol → Word → Prop) (free : G.ContextFree)
    (derive : ∀ symbol begun, starts symbol begun → H.Derives [symbol] begun)
    (cover : ∀ head body, (head, body) ∈ G.table.productions → starts head body ∨ ∃ first rest,
      body = first :: rest ∧ ∀ begun, starts first begun → starts head (begun ++ rest))
    {u word : Word} (kept : ∀ symbol ∈ word, starts symbol [symbol])
    (derivation : G.Derives u word) : H.Derives u word := by
  have means_derives (symbol : Symbol) (v : Word) (means : MeansThrough H starts symbol v) :
      H.Derives [symbol] v := by
    obtain ⟨begun, start, later⟩ := means
    exact (derive symbol begun start).trans later
  have spelled : Spelled (MeansThrough H starts) u word := by
    refine Spelled.of_derives free ?_ derivation
      (spelled_self fun symbol mem => ⟨[symbol], kept symbol mem, .refl⟩)
    intro head body mem v spelled
    rcases cover head body mem with start | ⟨first, rest, rfl, lengthen⟩
    · exact ⟨body, start, spelled.derives fun symbol _ => means_derives symbol⟩
    · obtain ⟨front, back, rfl, ⟨begun, start, later⟩, spelled⟩ := spelled
      have tail := spelled.derives fun symbol _ => means_derives symbol
      exact ⟨begun ++ rest, lengthen begun start, later.append tail⟩
  exact spelled.derives fun symbol _ => means_derives symbol

end LanguageTheory.Grammar

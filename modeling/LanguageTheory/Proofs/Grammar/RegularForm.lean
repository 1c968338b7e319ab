import LanguageTheory.Proofs.Grammar.RuleTable

/-!
Regular grammars. Every body is a terminal, a terminal with a non-terminal behind it, or empty, and
an empty body belongs to a start symbol that is in no body (`rank_eq_regular_iff`). So a derivation
writes its word from left to right: each production but the last gives one terminal and the
non-terminal from which the rest is derived (`Regular.derivesWord_cons`).
-/

set_option autoImplicit false
set_option relaxedAutoImplicit false

namespace LanguageTheory.Grammar

variable {G : Grammar} {head a B : Symbol} {body word : Word}

inductive RegularBody (G : Grammar) (head : Symbol) : Word → Prop
  | empty (allowed : G.MayErase [head]) : RegularBody G head []
  | last {a : Symbol} (terminal : a ∈ G.terminals) : RegularBody G head [a]
  | next {a B : Symbol} (terminal : a ∈ G.terminals) (known : B ∈ G.nonTerminals) :
      RegularBody G head [a, B]

private theorem isRegularProduction_iff :
    G.isRegularProduction ⟨[head], body⟩ = true ↔ G.RegularBody head body := by
  constructor
  · intro form
    match body, form with
    | [], form => exact .empty (of_decide_eq_true form)
    | [a], form => exact .last (of_decide_eq_true form)
    | [a, B], form =>
      obtain ⟨terminal, known⟩ := of_decide_eq_true form
      exact .next terminal known
    | _ :: _ :: _ :: _, form => cases form
  · intro form
    cases form with
    | empty allowed => exact decide_eq_true allowed
    | last terminal => exact decide_eq_true terminal
    | next terminal known => exact decide_eq_true ⟨terminal, known⟩

structure Regular (G : Grammar) : Prop where
  free : G.ContextFree
  form : ∀ head body, (head, body) ∈ G.table.productions → G.RegularBody head body

theorem rank_eq_regular_iff : G.rank = .regular ↔ G.Regular := by
  have all (free : G.ContextFree) : G.rules.productions.all G.isRegularProduction = true ↔
      ∀ head body, (head, body) ∈ G.table.productions → G.RegularBody head body := by
    rw [List.all_eq_true]
    constructor
    · exact fun form head body mem => isRegularProduction_iff.mp (form _ (mem_table_iff.mp mem))
    · intro form p mem
      obtain ⟨head, _, single, member⟩ := free.exists_head mem
      have same : p = ⟨[head], p.body⟩ := by rw [← single]
      rw [same]
      exact isRegularProduction_iff.mpr (form head p.body member)
  by_cases free : G.ContextFree
  · rw [rank, if_pos free]
    constructor
    · intro regular
      refine ⟨free, (all free).mp (by_contra fun other => ?_)⟩
      rw [if_neg other] at regular
      cases regular
    · intro regular
      rw [if_pos ((all free).mpr regular.form)]
  · refine ⟨fun regular => ?_, fun regular => absurd regular.free free⟩
    rw [rank, if_neg free] at regular
    split at regular
    · cases regular
    · cases regular

theorem requireRegular_iff {operation : Operation} :
    G.requireRegular operation = .ok () ↔ G.rank = .regular := by
  unfold requireRegular
  cases G.rank with
  | regular => simp
  | contextFree => simp
  | contextSensitive => simp
  | unrestricted => simp

def DerivesWord (G : Grammar) (symbol : Symbol) (word : Word) : Prop :=
  G.IsTerminalWord word ∧ G.Derives [symbol] word

private theorem yields_cons_iff (free : G.ContextFree) (outside : a ∉ G.nonTerminals)
    {stack : Word} :
    G.Yields (a :: stack) word ↔ ∃ rest, word = a :: rest ∧ G.Yields stack rest := by
  constructor
  · intro yields
    cases yields with
    | keep _ rest => exact ⟨_, rfl, rest⟩
    | expand member _ => exact absurd (free.head_mem member) outside
  · rintro ⟨rest, rfl, yields⟩
    exact .keep a yields

private theorem derivesWord_iff (free : G.ContextFree) (disjoint : G.Disjoint)
    (known : head ∈ G.nonTerminals) :
    G.DerivesWord head word ↔
      ∃ body, (head, body) ∈ G.table.productions ∧ G.IsTerminalWord word ∧ G.Yields body word := by
  rw [DerivesWord, derives_iff_yields free]
  constructor
  · rintro ⟨terminals, yields⟩
    cases yields with
    | keep _ _ => exact absurd (terminals head List.mem_cons_self) (disjoint head known)
    | @expand _ body _ _ member rest => exact ⟨body, member, terminals, List.append_nil body ▸ rest⟩
  · rintro ⟨body, member, terminals, yields⟩
    exact ⟨terminals, .expand member ((List.append_nil body).symm ▸ yields)⟩

theorem Regular.derivesWord_nil (regular : G.Regular) (disjoint : G.Disjoint)
    (known : head ∈ G.nonTerminals) :
    G.DerivesWord head [] ↔ (head, []) ∈ G.table.productions := by
  have outside {a : Symbol} (terminal : a ∈ G.terminals) : a ∉ G.nonTerminals :=
    fun known => disjoint a known terminal
  rw [derivesWord_iff regular.free disjoint known]
  constructor
  · rintro ⟨body, member, _, yields⟩
    cases regular.form head body member with
    | empty _ => exact member
    | last terminal =>
      obtain ⟨_, none, _⟩ := (yields_cons_iff regular.free (outside terminal)).mp yields
      cases none
    | next terminal _ =>
      obtain ⟨_, none, _⟩ := (yields_cons_iff regular.free (outside terminal)).mp yields
      cases none
  · exact fun member => ⟨[], member, fun _ mem => absurd mem List.not_mem_nil, .nil⟩

theorem Regular.derivesWord_cons (regular : G.Regular) (disjoint : G.Disjoint)
    (known : head ∈ G.nonTerminals) {rest : Word} : G.DerivesWord head (a :: rest) ↔
      (rest = [] ∧ (head, [a]) ∈ G.table.productions) ∨
        ∃ B, (head, [a, B]) ∈ G.table.productions ∧ G.DerivesWord B rest := by
  have outside {a : Symbol} (terminal : a ∈ G.terminals) : a ∉ G.nonTerminals :=
    fun known => disjoint a known terminal
  rw [derivesWord_iff regular.free disjoint known]
  constructor
  · rintro ⟨body, member, terminals, yields⟩
    obtain ⟨_, later⟩ := List.forall_mem_cons.mp terminals
    cases regular.form head body member with
    | empty _ => cases yields
    | last terminal =>
      obtain ⟨_, same, yields⟩ := (yields_cons_iff regular.free (outside terminal)).mp yields
      obtain ⟨rfl, rfl⟩ := List.cons.inj same
      cases yields
      exact Or.inl ⟨rfl, member⟩
    | @next _ B terminal _ =>
      obtain ⟨_, same, yields⟩ := (yields_cons_iff regular.free (outside terminal)).mp yields
      obtain ⟨rfl, rfl⟩ := List.cons.inj same
      exact Or.inr ⟨B, member, later, yields.derives⟩
  · rintro (⟨rfl, member⟩ | ⟨B, member, later, derivation⟩)
    · cases regular.form head [a] member with
      | last terminal =>
        exact ⟨[a], member, List.forall_mem_singleton.mpr terminal, .keep a .nil⟩
    · cases regular.form head [a, B] member with
      | next terminal _ =>
        have yields := (derives_iff_yields regular.free).mp derivation
        exact ⟨[a, B], member, List.forall_mem_cons.mpr ⟨terminal, later⟩, .keep a yields⟩

end LanguageTheory.Grammar

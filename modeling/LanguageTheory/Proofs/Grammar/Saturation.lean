import LanguageTheory.Grammar.Simplification
import LanguageTheory.Proofs.Grammar.Interpretation
import LanguageTheory.Proofs.Grammar.RuleTable

/-!
Sets of heads that grow until nothing passes any more. The heads that `saturate` finds are the least
ones closed under the rules (`saturate_induction`, `mem_saturate`). With the two tests in use these
are the symbols that vanish and the symbols that derive a word of terminals.
-/

set_option autoImplicit false
set_option relaxedAutoImplicit false

namespace LanguageTheory

namespace Grammar

section Marking

variable {passes : OrderedSet Symbol → Word → Bool} {heads : OrderedSet Symbol}
  {e : Symbol × OrderedSet Word} {entries : List (Symbol × OrderedSet Word)}

def mark (passes : OrderedSet Symbol → Word → Bool) (heads : OrderedSet Symbol)
    (e : Symbol × OrderedSet Word) : OrderedSet Symbol :=
  if e.2.toList.any (passes heads) then heads.insert e.1 else heads

private theorem toList_mark (passes : OrderedSet Symbol → Word → Bool) (heads : OrderedSet Symbol)
    (e : Symbol × OrderedSet Word) : heads.toList <+: (mark passes heads e).toList := by
  unfold mark
  split
  · unfold OrderedSet.insert
    split
    · exact List.prefix_refl _
    · exact List.prefix_append _ _
  · exact List.prefix_refl _

private theorem toList_foldl_mark (entries : List (Symbol × OrderedSet Word))
    (heads : OrderedSet Symbol) :
    heads.toList <+: (entries.foldl (mark passes) heads).toList := by
  induction entries generalizing heads with
  | nil => exact List.prefix_refl _
  | cons e entries ih => exact (toList_mark passes heads e).trans (ih _)

private theorem mem_mark {head : Symbol} (mem : head ∈ mark passes heads e) :
    head ∈ heads ∨ head = e.1 ∧ ∃ body ∈ e.2, passes heads body = true := by
  unfold mark at mem
  split at mem
  · rename_i some_passes
    refine (OrderedSet.mem_insert.mp mem).imp_right fun same => ⟨same, ?_⟩
    exact List.any_eq_true.mp some_passes
  · exact Or.inl mem

/-- If marking adds nothing, the heads of all bodies that pass were there: between equal ends
nothing changes. -/
private theorem closed_of_foldl_mark_eq (fixed : entries.foldl (mark passes) heads = heads) :
    ∀ e ∈ entries, ∀ body ∈ e.2, passes heads body = true → e.1 ∈ heads := by
  induction entries with
  | nil => exact fun e mem => absurd mem List.not_mem_nil
  | cons first entries ih =>
    have step : mark passes heads first = heads := by
      have below := toList_mark passes heads first
      have above : (mark passes heads first).toList <+: heads.toList := by
        have later : (mark passes heads first).toList <+:
            ((first :: entries).foldl (mark passes) heads).toList := toList_foldl_mark entries _
        rwa [fixed] at later
      exact OrderedSet.eq_of_toList_eq
        (above.eq_of_length (above.length_le.antisymm below.length_le))
    rw [List.foldl_cons, step] at fixed
    refine List.forall_mem_cons.mpr ⟨fun body mem pass => ?_, ih fixed⟩
    have marked : first.1 ∈ mark passes heads first := by
      rw [mark, if_pos (List.any_eq_true.mpr ⟨body, mem, pass⟩)]
      exact OrderedSet.mem_insert.mpr (Or.inr rfl)
    rwa [step] at marked

end Marking

section Saturation

variable {table : RuleTable} {passes : OrderedSet Symbol → Word → Bool}

private theorem saturationRound_induction {P : Symbol → Prop}
    (keep : ∀ heads : OrderedSet Symbol, (∀ head ∈ heads, P head) → ∀ head body,
      (head, body) ∈ table.productions → passes heads body = true → P head)
    {heads : OrderedSet Symbol} (all : ∀ head ∈ heads, P head) :
    ∀ head ∈ saturationRound table passes heads, P head := by
  refine List.foldlRecOn (motive := fun heads : OrderedSet Symbol => ∀ head ∈ heads, P head)
    table.entries (mark passes) all ?_
  intro heads all e entry head mem
  rcases mem_mark mem with old | ⟨rfl, body, member, pass⟩
  · exact all head old
  · have production : (e.1, body) ∈ table.productions :=
      List.mem_flatMap.mpr ⟨e, entry, List.mem_map.mpr ⟨body, member, rfl⟩⟩
    exact keep heads all e.1 body production pass

theorem saturate_induction {P : Symbol → Prop}
    (keep : ∀ heads : OrderedSet Symbol, (∀ head ∈ heads, P head) → ∀ head body,
      (head, body) ∈ table.productions → passes heads body = true → P head) :
    ∀ head ∈ saturate table passes, P head :=
  stabilize_induction (P := fun heads : OrderedSet Symbol => ∀ head ∈ heads, P head)
    (fun _ all => saturationRound_induction keep all) _
    fun head mem => absurd mem (OrderedSet.not_mem_empty head)

private theorem saturationRound_saturate (table : RuleTable)
    (passes : OrderedSet Symbol → Word → Bool) :
    saturationRound table passes (saturate table passes) = saturate table passes := by
  refine stabilize_stable (P := fun heads : OrderedSet Symbol => ∀ head ∈ heads, head ∈ table.keys)
    OrderedSet.size table.size ?_ ?_ ?_ (fun head mem => absurd mem (OrderedSet.not_mem_empty head))
      ?_
  · intro heads inside
    refine saturationRound_induction (fun _ _ head body mem _ => ?_) inside
    exact RuleTable.mem_keys_of_mem_bodies (RuleTable.mem_productions_iff.mp mem)
  · intro heads inside
    have few := (List.subperm_of_subset heads.nodup inside).length_le
    rwa [OrderedTable.keys, List.length_map] at few
  · intro heads _ changed
    have grown : heads.toList <+: (saturationRound table passes heads).toList :=
      toList_foldl_mark table.entries heads
    refine lt_of_le_of_ne grown.length_le fun same => changed ?_
    exact (OrderedSet.eq_of_toList_eq (grown.eq_of_length same)).symm
  · exact Nat.lt_succ_self table.size

theorem mem_saturate {head : Symbol} {body : Word} (mem : (head, body) ∈ table.productions)
    (pass : passes (saturate table passes) body = true) : head ∈ saturate table passes := by
  obtain ⟨e, entry, member⟩ := List.mem_flatMap.mp mem
  obtain ⟨body, inside, same⟩ := List.mem_map.mp member
  cases same
  exact closed_of_foldl_mark_eq (saturationRound_saturate table passes) e entry body inside pass

end Saturation

section Meaning

variable {G : Grammar} {symbol : Symbol}

theorem mem_nullableSymbols_iff : symbol ∈ G.nullableSymbols ↔ G.Vanishes symbol := by
  constructor
  · refine saturate_induction (P := G.Vanishes) (fun heads all head body mem pass => ?_) symbol
    refine vanishes_iff.mpr ⟨body, mem, fun other inside => all other ?_⟩
    exact of_decide_eq_true (List.all_eq_true.mp pass other inside)
  · rintro ⟨height, vanish⟩
    induction height generalizing symbol with
    | zero => exact vanish.elim
    | succ height ih =>
      obtain ⟨body, mem, all⟩ := vanish
      refine mem_saturate mem (List.all_eq_true.mpr fun other inside => ?_)
      exact decide_eq_true (ih (all other inside))

def Productive (G : Grammar) (symbol : Symbol) : Prop :=
  ∃ word, G.IsTerminalWord word ∧ G.Derives [symbol] word

theorem exists_terminal_word {u : Word} (all : ∀ symbol ∈ u, G.Productive symbol) :
    ∃ word, G.IsTerminalWord word ∧ G.Derives u word := by
  induction u with
  | nil => exact ⟨[], fun symbol mem => absurd mem List.not_mem_nil, .refl⟩
  | cons first u ih =>
    obtain ⟨⟨front, terminal, here⟩, rest⟩ := List.forall_mem_cons.mp all
    obtain ⟨back, terminals, later⟩ := ih rest
    exact ⟨front ++ back, List.forall_mem_append.mpr ⟨terminal, terminals⟩, here.append later⟩

def Usable (G : Grammar) (symbol : Symbol) : Prop :=
  symbol ∈ G.terminals ∨ symbol ∈ G.productiveSymbols

theorem Usable.productive (usable : G.Usable symbol) : G.Productive symbol := by
  rcases usable with terminal | found
  · exact ⟨[symbol], List.forall_mem_singleton.mpr terminal, .refl⟩
  · refine saturate_induction (P := G.Productive)
      (fun heads all head body mem pass => ?_) symbol found
    have each (other : Symbol) (inside : other ∈ body) : G.Productive other := by
      rcases of_decide_eq_true (List.all_eq_true.mp pass other inside) with terminal | known
      · exact ⟨[other], List.forall_mem_singleton.mpr terminal, .refl⟩
      · exact all other known
    obtain ⟨word, terminals, derivation⟩ := exists_terminal_word each
    exact ⟨word, terminals, (Derives.of_production mem).trans derivation⟩

theorem usable_of_body {body : Word} (mem : (symbol, body) ∈ G.table.productions)
    (all : ∀ other ∈ body, G.Usable other) : symbol ∈ G.productiveSymbols :=
  mem_saturate mem (List.all_eq_true.mpr fun other inside => decide_eq_true (all other inside))

theorem usable_of_derives (free : G.ContextFree) {u word : Word} (terminals : G.IsTerminalWord word)
    (derivation : G.Derives u word) : ∀ other ∈ u, G.Usable other := by
  have spelled : Spelled (fun other _ => G.Usable other) u word := by
    refine Spelled.of_derives free (fun head body mem v spelled => ?_) derivation
      (spelled_self fun other mem => Or.inl (terminals other mem))
    exact Or.inr (usable_of_body mem (spelled.forall fun _ _ usable => usable))
  exact spelled.forall fun _ _ usable => usable

theorem usable_iff_productive (free : G.ContextFree) : G.Usable symbol ↔ G.Productive symbol := by
  refine ⟨Usable.productive, ?_⟩
  rintro ⟨word, terminals, derivation⟩
  exact List.forall_mem_singleton.mp (usable_of_derives free terminals derivation)

end Meaning

end Grammar

end LanguageTheory

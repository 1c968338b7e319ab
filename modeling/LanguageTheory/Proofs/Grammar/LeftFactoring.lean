import LanguageTheory.Grammar.LeftFactoring
import LanguageTheory.Proofs.FreshName
import LanguageTheory.Proofs.Grammar.Interpretation
import LanguageTheory.Proofs.Grammar.RuleTable

/-!
Left factoring of bodies that visibly begin alike. Every group of such bodies is joined by one new
non-terminal (`Joint`); `Factoring` says which productions the factored grammar has in terms of the
joints. A joint stands for the rests of its group, so the words over the symbols of the grammar are
derived as before, and if no non-terminal was introduced, no bodies of a head begin alike.
-/

set_option autoImplicit false
set_option relaxedAutoImplicit false

namespace LanguageTheory.Grammar

variable {G : Grammar}

section CommonStart

private theorem commonStart_begins (u v : Word) :
    commonStart u v <+: u ∧ commonStart u v <+: v := by
  induction u generalizing v with
  | nil => exact ⟨List.nil_prefix, List.nil_prefix⟩
  | cons a u ih =>
    cases v with
    | nil => exact ⟨List.nil_prefix, List.nil_prefix⟩
    | cons b v =>
      unfold commonStart
      split
      · rename_i same
        subst same
        exact ⟨(List.prefix_cons_inj a).mpr (ih v).1, (List.prefix_cons_inj a).mpr (ih v).2⟩
      · exact ⟨List.nil_prefix, List.nil_prefix⟩

private theorem foldl_commonStart_begins (words : List Word) (word : Word) :
    ∀ other ∈ word :: words, words.foldl commonStart word <+: other := by
  induction words generalizing word with
  | nil => exact List.forall_mem_singleton.mpr (List.prefix_refl word)
  | cons next words ih =>
    obtain ⟨start, later⟩ := List.forall_mem_cons.mp (ih (commonStart word next))
    obtain ⟨first, second⟩ := commonStart_begins word next
    exact List.forall_mem_cons.mpr ⟨start.trans first,
      List.forall_mem_cons.mpr ⟨start.trans second, later⟩⟩

private theorem commonStartOfAll_begins (words : List Word) :
    ∀ word ∈ words, commonStartOfAll words <+: word := by
  cases words with
  | nil => exact fun word mem => absurd mem List.not_mem_nil
  | cons word words => exact foldl_commonStart_begins words word

variable {start : Word}

private theorem commonStart_longest {u v : Word} (first : start <+: u) (second : start <+: v) :
    start <+: commonStart u v := by
  induction u generalizing start v with
  | nil => exact first
  | cons a u ih =>
    cases start with
    | nil => exact List.nil_prefix
    | cons b start =>
      cases v with
      | nil => exact second
      | cons c v =>
        obtain ⟨rfl, left⟩ := List.cons_prefix_cons.mp first
        obtain ⟨rfl, right⟩ := List.cons_prefix_cons.mp second
        rw [commonStart, if_pos rfl]
        exact (List.prefix_cons_inj b).mpr (ih left right)

private theorem foldl_commonStart_longest {words : List Word} {word : Word}
    (common : ∀ other ∈ word :: words, start <+: other) :
    start <+: words.foldl commonStart word := by
  induction words generalizing word with
  | nil => exact common word List.mem_cons_self
  | cons next words ih =>
    obtain ⟨first, second, later⟩ := by simpa only [List.forall_mem_cons] using common
    exact ih (List.forall_mem_cons.mpr ⟨commonStart_longest first second, later⟩)

theorem commonStartOfAll_longest {words : List Word} (filled : words ≠ [])
    (common : ∀ word ∈ words, start <+: word) : start <+: commonStartOfAll words := by
  obtain ⟨word, words, rfl⟩ := List.exists_cons_of_ne_nil filled
  exact foldl_commonStart_longest common

end CommonStart

section Joints

def groupOf (bodies : List Word) (symbol : Symbol) : List Word :=
  bodies.filter fun body => decide (body.head? = some symbol)

theorem mem_groupOf {bodies : List Word} {symbol : Symbol} {body : Word} :
    body ∈ groupOf bodies symbol ↔ body ∈ bodies ∧ body.head? = some symbol := by
  simp [groupOf]

theorem two_le_length_of_ne {words : List Word} {u v : Word} (first : u ∈ words)
    (second : v ∈ words) (different : u ≠ v) : 2 ≤ words.length := by
  have inside : ({u, v} : Finset Word) ⊆ words.toFinset := by
    simp [Finset.insert_subset_iff, first, second]
  have count := (Finset.card_le_card inside).trans words.toFinset_card_le
  rwa [Finset.card_pair different] at count

theorem exists_ne_of_two_le_length {words : List Word} (distinct : words.Nodup)
    (several : 2 ≤ words.length) : ∃ u ∈ words, ∃ v ∈ words, u ≠ v := by
  rw [← List.toFinset_card_of_nodup distinct] at several
  simpa only [List.mem_toFinset] using Finset.one_lt_card.mp several

/-- Several bodies, among them perhaps the given one, begin with its first symbol. -/
def Crowded (bodies : List Word) (body : Word) : Prop :=
  ∃ symbol, body.head? = some symbol ∧ 2 ≤ (groupOf bodies symbol).length

/-- A new non-terminal, the first symbol of the bodies that it joins, and their head with all of its
bodies. -/
structure Joint where
  head : Symbol
  bodies : List Word
  first : Symbol
  fresh : Symbol

namespace Joint

/-- The head and the first symbol of the bodies that are joined: two joints are made at two
places. -/
def place (joint : Joint) : Symbol × Symbol := (joint.head, joint.first)

def group (joint : Joint) : List Word := groupOf joint.bodies joint.first

def stem (joint : Joint) : Word := commonStartOfAll joint.group

def rests (joint : Joint) : OrderedSet Word :=
  OrderedSet.ofList (joint.group.map fun body => body.drop joint.stem.length)

variable {joint : Joint}

theorem exists_rest {body : Word} (mem : body ∈ joint.group) :
    ∃ rest ∈ joint.rests, body = joint.stem ++ rest := by
  obtain ⟨rest, rfl⟩ := commonStartOfAll_begins joint.group body mem
  refine ⟨rest, OrderedSet.mem_ofList.mpr (List.mem_map.mpr ⟨_, mem, ?_⟩), rfl⟩
  exact List.drop_left

private theorem mem_group_of_rest {rest : Word} (mem : rest ∈ joint.rests) :
    joint.stem ++ rest ∈ joint.group := by
  obtain ⟨body, member, rfl⟩ := List.mem_map.mp (OrderedSet.mem_ofList.mp mem)
  have whole : joint.stem ++ body.drop joint.stem.length = body :=
    List.prefix_iff_eq_append.mp (commonStartOfAll_begins joint.group body member)
  rwa [whole]

end Joint

end Joints

section Bodies

structure Joined (head : Symbol) (bodies : List Word) (treated : List Symbol) (pending : List Word)
    (state result : Factored) (joints : List Joint) : Prop where
  drawn : state.pool.Draws (joints.map Joint.fresh) result.pool
  introduced : result.introduced = state.introduced ++ joints.map fun joint =>
    (joint.fresh, joint.rests)
  mem_bodies : ∀ body, body ∈ result.bodies ↔ body ∈ state.bodies ∨
    (body ∈ pending ∧ ¬ Crowded bodies body) ∨ ∃ joint ∈ joints, body = joint.stem ++ [joint.fresh]
  origin : ∀ joint ∈ joints, joint.head = head ∧ joint.bodies = bodies ∧ 2 ≤ joint.group.length
  complete : ∀ symbol rest, symbol :: rest ∈ pending → 2 ≤ (groupOf bodies symbol).length →
    symbol ∈ treated ∨ ∃ joint ∈ joints, joint.first = symbol
  untreated : ∀ joint ∈ joints, joint.first ∉ treated
  firsts : (joints.map Joint.first).Nodup

variable {head symbol : Symbol} {bodies pending : List Word} {treated : List Symbol}
  {state result : Factored} {joints : List Joint} {body : Word}

private theorem Joined.nil (head : Symbol) (bodies : List Word) (treated : List Symbol)
    (state : Factored) :
    Joined head bodies treated [] state state [] where
  drawn := .nil state.pool
  introduced := (List.append_nil _).symm
  mem_bodies body := by simp
  origin joint mem := absurd mem List.not_mem_nil
  complete symbol rest mem := absurd mem List.not_mem_nil
  untreated joint mem := absurd mem List.not_mem_nil
  firsts := List.nodup_nil

private theorem Joined.keep (alone : ¬ Crowded bodies body)
    (later : Joined head bodies treated pending { state with bodies := state.bodies.insert body }
      result joints) :
    Joined head bodies treated (body :: pending) state result joints where
  drawn := later.drawn
  introduced := later.introduced
  mem_bodies other := by
    rw [later.mem_bodies, OrderedSet.mem_insert, List.mem_cons, or_assoc, or_and_right, or_assoc]
    have same : other = body ∧ ¬ Crowded bodies other ↔ other = body :=
      and_iff_left_of_imp fun same => same ▸ alone
    rw [same]
  origin := later.origin
  complete first rest mem crowd := by
    rcases List.mem_cons.mp mem with rfl | mem
    · exact absurd ⟨first, rfl, crowd⟩ alone
    · exact later.complete first rest mem crowd
  untreated := later.untreated
  firsts := later.firsts

private theorem Joined.skip {rest : Word} (crowd : 2 ≤ (groupOf bodies symbol).length)
    (known : symbol ∈ treated) (later : Joined head bodies treated pending state result joints) :
    Joined head bodies treated ((symbol :: rest) :: pending) state result joints where
  drawn := later.drawn
  introduced := later.introduced
  mem_bodies other := by
    rw [later.mem_bodies, List.mem_cons, or_and_right]
    have none : ¬ (other = symbol :: rest ∧ ¬ Crowded bodies other) := by
      rintro ⟨rfl, alone⟩
      exact alone ⟨symbol, rfl, crowd⟩
    rw [or_iff_right none]
  origin := later.origin
  complete first tail mem crowd := by
    rcases List.mem_cons.mp mem with same | mem
    · exact Or.inl ((List.cons.inj same).1 ▸ known)
    · exact later.complete first tail mem crowd
  untreated := later.untreated
  firsts := later.firsts

private theorem Joined.join {rest : Word} {joint : Joint} (same_head : joint.head = head)
    (same_bodies : joint.bodies = bodies) (same_first : joint.first = symbol)
    (same_fresh : joint.fresh = state.pool.fresh.1) (crowd : 2 ≤ (groupOf bodies symbol).length)
    (new : symbol ∉ treated) (later : Joined head bodies (symbol :: treated) pending
      ⟨state.bodies.insert (joint.stem ++ [joint.fresh]),
        state.introduced ++ [(joint.fresh, joint.rests)], state.pool.fresh.2⟩ result joints) :
    Joined head bodies treated ((symbol :: rest) :: pending) state result (joint :: joints) where
  drawn := by
    rw [List.map_cons, same_fresh]
    exact .cons later.drawn
  introduced := by rw [later.introduced, List.append_assoc, List.map_cons, List.singleton_append]
  mem_bodies other := by
    have none : ¬ (other = symbol :: rest ∧ ¬ Crowded bodies other) := by
      rintro ⟨rfl, alone⟩
      exact alone ⟨symbol, rfl, crowd⟩
    rw [later.mem_bodies, OrderedSet.mem_insert, List.mem_cons, or_and_right, or_iff_right none,
      List.exists_mem_cons_iff, or_assoc]
    exact or_congr_right or_left_comm
  origin := by
    refine List.forall_mem_cons.mpr ⟨⟨same_head, same_bodies, ?_⟩, later.origin⟩
    rw [Joint.group, same_bodies, same_first]
    exact crowd
  complete first tail mem crowd := by
    rcases List.mem_cons.mp mem with same | mem
    · exact Or.inr ⟨joint, List.mem_cons_self, same_first.trans (List.cons.inj same).1.symm⟩
    · rcases later.complete first tail mem crowd with known | ⟨other, member, same⟩
      · rcases List.mem_cons.mp known with rfl | known
        · exact Or.inr ⟨joint, List.mem_cons_self, same_first⟩
        · exact Or.inl known
      · exact Or.inr ⟨other, List.mem_cons_of_mem joint member, same⟩
  untreated := List.forall_mem_cons.mpr ⟨same_first ▸ new, fun other member known =>
    later.untreated other member (List.mem_cons_of_mem symbol known)⟩
  firsts := by
    refine List.nodup_cons.mpr ⟨fun again => ?_, later.firsts⟩
    obtain ⟨other, member, same⟩ := List.mem_map.mp again
    exact later.untreated other member (same.trans same_first ▸ List.mem_cons_self)

theorem factorBodies_keep {rest : Word} (few : (groupOf bodies symbol).length < 2) :
    factorBodies bodies treated state ((symbol :: rest) :: pending) = factorBodies bodies treated
      { state with bodies := state.bodies.insert (symbol :: rest) } pending := if_pos few

private theorem factorBodies_skip {rest : Word} (crowd : 2 ≤ (groupOf bodies symbol).length)
    (known : symbol ∈ treated) : factorBodies bodies treated state ((symbol :: rest) :: pending) =
      factorBodies bodies treated state pending :=
  (if_neg (Nat.not_lt.mpr crowd)).trans (if_pos known)

private theorem factorBodies_join {rest : Word} (joint : Joint)
    (same_bodies : joint.bodies = bodies) (same_first : joint.first = symbol)
    (same_fresh : joint.fresh = state.pool.fresh.1) (crowd : 2 ≤ (groupOf bodies symbol).length)
    (new : symbol ∉ treated) :
    factorBodies bodies treated state ((symbol :: rest) :: pending) =
      factorBodies bodies (symbol :: treated) ⟨state.bodies.insert (joint.stem ++ [joint.fresh]),
        state.introduced ++ [(joint.fresh, joint.rests)], state.pool.fresh.2⟩ pending := by
  obtain ⟨head, _, _, _⟩ := joint
  cases same_bodies
  cases same_first
  cases same_fresh
  exact (if_neg (Nat.not_lt.mpr crowd)).trans (if_neg new)

private theorem exists_joined (head : Symbol) (bodies : List Word) (treated : List Symbol)
    (pending : List Word) (state : Factored) :
    ∃ joints, Joined head bodies treated pending state (factorBodies bodies treated state pending)
      joints := by
  induction pending generalizing treated state with
  | nil => exact ⟨[], .nil head bodies treated state⟩
  | cons body pending ih =>
    cases body with
    | nil =>
      obtain ⟨joints, later⟩ := ih treated { state with bodies := state.bodies.insert [] }
      refine ⟨joints, later.keep ?_⟩
      rintro ⟨symbol, first, _⟩
      cases first
    | cons symbol rest =>
      by_cases few : (groupOf bodies symbol).length < 2
      · rw [factorBodies_keep few]
        obtain ⟨joints, later⟩ := ih treated _
        refine ⟨joints, later.keep ?_⟩
        rintro ⟨_, first, crowd⟩
        cases first
        exact absurd few (Nat.not_lt.mpr crowd)
      · have crowd : 2 ≤ (groupOf bodies symbol).length := Nat.not_lt.mp few
        by_cases known : symbol ∈ treated
        · rw [factorBodies_skip crowd known]
          obtain ⟨joints, later⟩ := ih treated state
          exact ⟨joints, later.skip crowd known⟩
        · rw [factorBodies_join ⟨head, bodies, symbol, state.pool.fresh.1⟩ rfl rfl rfl crowd known]
          obtain ⟨joints, later⟩ := ih (symbol :: treated) _
          exact ⟨_ :: joints, .join rfl rfl rfl rfl crowd known later⟩

end Bodies

section Entries

structure JoinedEntries (pool : SymbolPool) (entries result : List (Symbol × OrderedSet Word))
    (joints : List Joint) : Prop where
  drawn : ∃ last, pool.Draws (joints.map Joint.fresh) last
  keys : (result.map Prod.fst).Perm (entries.map Prod.fst ++ joints.map Joint.fresh)
  mem_iff : ∀ head body, (∃ bodies, (head, bodies) ∈ result ∧ body ∈ bodies) ↔
    (∃ bodies, (head, bodies) ∈ entries ∧ body ∈ bodies ∧ ¬ Crowded bodies.toList body) ∨
    (∃ joint ∈ joints, head = joint.head ∧ body = joint.stem ++ [joint.fresh]) ∨
    ∃ joint ∈ joints, head = joint.fresh ∧ body ∈ joint.rests
  origin : ∀ joint ∈ joints, (∃ bodies, (joint.head, bodies) ∈ entries ∧
    joint.bodies = bodies.toList) ∧
    2 ≤ joint.group.length
  complete : ∀ head bodies, (head, bodies) ∈ entries → ∀ symbol,
    2 ≤ (groupOf bodies.toList symbol).length →
      ∃ joint ∈ joints, joint.head = head ∧ joint.first = symbol
  places : (joints.map Joint.place).Nodup

variable {pool : SymbolPool} {head : Symbol} {bodies : OrderedSet Word} {factored : Factored}
  {entries result : List (Symbol × OrderedSet Word)} {joints later_joints : List Joint}

private theorem JoinedEntries.nil (pool : SymbolPool) : JoinedEntries pool [] [] [] where
  drawn := ⟨pool, .nil pool⟩
  keys := .refl []
  mem_iff head body := by simp
  origin joint mem := absurd mem List.not_mem_nil
  complete head bodies mem := absurd mem List.not_mem_nil
  places := List.nodup_nil

private theorem Joined.mem_iff_cons
    (here : Joined head bodies.toList [] bodies.toList ⟨.empty, [], pool⟩ factored joints)
    (later : JoinedEntries factored.pool entries result later_joints) (other : Symbol)
    (body : Word) :
    (∃ found, (other, found) ∈ (head, factored.bodies) :: (factored.introduced ++ result) ∧
        body ∈ found) ↔
      (∃ found, (other, found) ∈ (head, bodies) :: entries ∧ body ∈ found ∧
        ¬ Crowded found.toList body) ∨
      (∃ joint ∈ joints ++ later_joints, other = joint.head ∧ body = joint.stem ++ [joint.fresh]) ∨
      ∃ joint ∈ joints ++ later_joints, other = joint.fresh ∧ body ∈ joint.rests := by
  have kept : body ∈ factored.bodies ↔ (body ∈ bodies ∧ ¬ Crowded bodies.toList body) ∨
      ∃ joint ∈ joints, body = joint.stem ++ [joint.fresh] :=
    (here.mem_bodies body).trans (or_iff_right (OrderedSet.not_mem_empty body))
  have joined : (∃ joint ∈ joints, other = joint.head ∧ body = joint.stem ++ [joint.fresh]) ↔
      other = head ∧ ∃ joint ∈ joints, body = joint.stem ++ [joint.fresh] := by
    constructor
    · rintro ⟨joint, mem, rfl, same⟩
      exact ⟨(here.origin joint mem).1, joint, mem, same⟩
    · rintro ⟨rfl, joint, mem, same⟩
      exact ⟨joint, mem, (here.origin joint mem).1.symm, same⟩
  have introduced : (∃ found, (other, found) ∈ factored.introduced ∧ body ∈ found) ↔
      ∃ joint ∈ joints, other = joint.fresh ∧ body ∈ joint.rests := by
    rw [here.introduced, List.nil_append]
    simp only [List.mem_map, Prod.mk.injEq]
    constructor
    · rintro ⟨_, ⟨joint, mem, rfl, rfl⟩, member⟩
      exact ⟨joint, mem, rfl, member⟩
    · rintro ⟨joint, mem, rfl, member⟩
      exact ⟨_, ⟨joint, mem, rfl, rfl⟩, member⟩
  have regroup (a b c d e f : Prop) :
      (a ∨ b) ∨ c ∨ d ∨ e ∨ f ↔ (a ∨ d) ∨ (b ∨ e) ∨ c ∨ f := by
    simp only [or_assoc, or_left_comm]
  simp only [List.mem_cons, List.mem_append, Prod.mk.injEq, or_and_right, exists_or, and_assoc,
    exists_and_left, exists_eq_left, introduced, later.mem_iff, joined]
  rw [kept, and_or_left, regroup]

private theorem JoinedEntries.cons
    (here : Joined head bodies.toList [] bodies.toList ⟨.empty, [], pool⟩ factored joints)
    (new : head ∉ entries.map Prod.fst)
    (later : JoinedEntries factored.pool entries result later_joints) :
    JoinedEntries pool ((head, bodies) :: entries)
      ((head, factored.bodies) :: (factored.introduced ++ result)) (joints ++ later_joints) where
  drawn := by
    obtain ⟨last, drawn⟩ := later.drawn
    exact ⟨last, List.map_append ▸ here.drawn.append drawn⟩
  keys := by
    have introduced : factored.introduced.map Prod.fst = joints.map Joint.fresh := by
      rw [here.introduced, List.nil_append, List.map_map]
      rfl
    rw [List.map_cons, List.map_cons, List.map_append, List.map_append, introduced,
      List.cons_append]
    refine .cons head ?_
    exact (later.keys.append_left _).trans (List.perm_append_comm_assoc _ _ _)
  mem_iff := here.mem_iff_cons later
  origin joint mem := by
    rcases List.mem_append.mp mem with mem | mem
    · obtain ⟨same, all, crowd⟩ := here.origin joint mem
      exact ⟨⟨bodies, same ▸ List.mem_cons_self, all⟩, crowd⟩
    · obtain ⟨⟨found, stored, all⟩, crowd⟩ := later.origin joint mem
      exact ⟨⟨found, List.mem_cons_of_mem _ stored, all⟩, crowd⟩
  complete other found mem symbol crowd := by
    rcases List.mem_cons.mp mem with same | mem
    · cases same
      obtain ⟨first, inside⟩ := List.exists_mem_of_length_pos (Nat.zero_lt_of_lt crowd)
      obtain ⟨member, begins⟩ := mem_groupOf.mp inside
      obtain ⟨rest, rfl⟩ := List.head?_eq_some_iff.mp begins
      rcases here.complete symbol rest member crowd with none | ⟨joint, known, same⟩
      · exact absurd none List.not_mem_nil
      · exact ⟨joint, List.mem_append_left _ known, (here.origin joint known).1, same⟩
    · obtain ⟨joint, known, same⟩ := later.complete other found mem symbol crowd
      exact ⟨joint, List.mem_append_right _ known, same⟩
  places := by
    have here_places : (joints.map Joint.place).Nodup := by
      apply List.Nodup.of_map Prod.snd
      rw [List.map_map]
      exact here.firsts
    rw [List.map_append]
    refine List.nodup_append.mpr ⟨here_places, later.places, ?_⟩
    rintro _ first _ second rfl
    obtain ⟨joint, mem, rfl⟩ := List.mem_map.mp first
    obtain ⟨other, member, same⟩ := List.mem_map.mp second
    obtain ⟨⟨found, stored, _⟩, _⟩ := later.origin other member
    have heads : other.head = head := (congrArg Prod.fst same).trans (here.origin joint mem).1
    exact new (heads ▸ List.mem_map_of_mem stored)

private theorem JoinedEntries.nodup_keys (joined : JoinedEntries pool entries result joints)
    (distinct : (entries.map Prod.fst).Nodup)
    (used : ∀ head ∈ entries.map Prod.fst, head ∈ pool.used) : (result.map Prod.fst).Nodup := by
  obtain ⟨last, drawn⟩ := joined.drawn
  refine joined.keys.nodup_iff.mpr (List.nodup_append.mpr ⟨distinct, drawn.nodup, ?_⟩)
  rintro head known _ fresh rfl
  exact drawn.not_mem _ fresh (used head known)

private theorem exists_joinedEntries (pool : SymbolPool) {entries : List (Symbol × OrderedSet Word)}
    (distinct : (entries.map Prod.fst).Nodup) :
    ∃ joints, JoinedEntries pool entries (factorEntries pool entries) joints := by
  induction entries generalizing pool with
  | nil => exact ⟨[], .nil pool⟩
  | cons e entries ih =>
    obtain ⟨joints, here⟩ := exists_joined e.1 e.2.toList [] e.2.toList ⟨.empty, [], pool⟩
    obtain ⟨new, distinct⟩ := List.nodup_cons.mp distinct
    obtain ⟨later_joints, later⟩ := ih _ distinct
    exact ⟨joints ++ later_joints, .cons here new later⟩

end Entries

section Factoring

/-- No head has two bodies that begin with the same symbol. -/
def LeftFactored (G : Grammar) : Prop :=
  ∀ head symbol u v, ⟨head, symbol :: u⟩ ∈ G.rules.productions →
    ⟨head, symbol :: v⟩ ∈ G.rules.productions → u = v

/-- The parts of the factored grammar in terms of its joints. -/
structure Factoring (G : Grammar) (joints : List Joint) : Prop where
  distinct : (joints.map Joint.fresh).Nodup
  new : ∀ joint ∈ joints, joint.fresh ∉ G.symbols ∧ joint.fresh ≠ Symbol.epsilon
  mem_nonTerminals : ∀ symbol, symbol ∈ G.factorDirectly.nonTerminals ↔
    symbol ∈ G.nonTerminals ∨ ∃ joint ∈ joints, symbol = joint.fresh
  mem_productions : ∀ head body, (head, body) ∈ G.factorDirectly.table.productions ↔
    ((head, body) ∈ G.table.productions ∧ ¬ Crowded (G.table.bodies head) body) ∨
    (∃ joint ∈ joints, head = joint.head ∧ body = joint.stem ++ [joint.fresh]) ∨
    ∃ joint ∈ joints, head = joint.fresh ∧ body ∈ joint.rests
  origin : ∀ joint ∈ joints, joint.bodies = G.table.bodies joint.head ∧ 2 ≤ joint.group.length
  complete : ∀ head symbol, 2 ≤ (groupOf (G.table.bodies head) symbol).length →
    ∃ joint ∈ joints, joint.head = head ∧ joint.first = symbol
  places : (joints.map Joint.place).Nodup

private theorem mem_uncrowded {head : Symbol} {body : Word} :
    (∃ bodies, (head, bodies) ∈ G.table.entries ∧ body ∈ bodies ∧ ¬ Crowded bodies.toList body) ↔
      (head, body) ∈ G.table.productions ∧ ¬ Crowded (G.table.bodies head) body := by
  rw [RuleTable.mem_productions_iff, RuleTable.mem_bodies_iff]
  simp only [OrderedTable.get?_eq_some_iff]
  constructor
  · rintro ⟨bodies, mem, member, alone⟩
    rw [RuleTable.bodies_of_mem mem]
    exact ⟨⟨bodies, mem, member⟩, alone⟩
  · rintro ⟨⟨bodies, mem, member⟩, alone⟩
    rw [RuleTable.bodies_of_mem mem] at alone
    exact ⟨bodies, mem, member, alone⟩

theorem exists_factoring (free : G.ContextFree) : ∃ joints, G.Factoring joints := by
  obtain ⟨joints, joined⟩ := exists_joinedEntries (.avoiding G.symbols) G.table.nodup
  obtain ⟨last, drawn⟩ := joined.drawn
  have stored := OrderedTable.entries_ofList (joined.nodup_keys G.table.nodup fun head known =>
    mem_symbols_of_nonTerminal (free.key_mem known))
  exact ⟨joints, {
    distinct := drawn.nodup
    new := fun joint mem =>
      ⟨drawn.not_mem _ (List.mem_map_of_mem mem), drawn.ne_epsilon _ (List.mem_map_of_mem mem)⟩
    mem_nonTerminals := fun symbol => by
      have known : symbol ∈ G.nonTerminals ∨ symbol ∈ G.table.entries.map Prod.fst ↔
          symbol ∈ G.nonTerminals := or_iff_left_of_imp free.key_mem
      rw [factorDirectly, withTable, mem_nonTerminals_ofTable, OrderedTable.mem_keys_ofList,
        joined.keys.mem_iff, List.mem_append, ← or_assoc, known]
      simp only [List.mem_map, eq_comm]
    mem_productions := fun head body => by
      rw [factorDirectly, mem_table_withTable, RuleTable.mem_bodies_iff]
      simp only [OrderedTable.get?_eq_some_iff, stored]
      rw [joined.mem_iff, mem_uncrowded]
    origin := fun joint mem => by
      obtain ⟨⟨bodies, mem, all⟩, crowd⟩ := joined.origin joint mem
      exact ⟨all.trans (RuleTable.bodies_of_mem mem).symm, crowd⟩
    complete := fun head symbol crowd => by
      obtain ⟨body, inside⟩ := List.exists_mem_of_length_pos (Nat.zero_lt_of_lt crowd)
      obtain ⟨bodies, found, _⟩ := RuleTable.mem_bodies_iff.mp (mem_groupOf.mp inside).1
      have mem := OrderedTable.get?_eq_some_iff.mp found
      rw [RuleTable.bodies_of_mem mem] at crowd
      exact joined.complete head bodies mem symbol crowd
    places := joined.places }⟩

namespace Factoring

variable {joints : List Joint} {joint : Joint} {head : Symbol} {body word : Word}

theorem mem_of_rest (factoring : G.Factoring joints) (mem : joint ∈ joints) {rest : Word}
    (member : rest ∈ joint.rests) : (joint.head, joint.stem ++ rest) ∈ G.table.productions := by
  have inside := (mem_groupOf.mp (Joint.mem_group_of_rest member)).1
  rw [(factoring.origin joint mem).1] at inside
  exact mem_bodies_table_iff.mp inside

theorem exists_mem_rests (factoring : G.Factoring joints) (mem : joint ∈ joints) :
    ∃ rest, rest ∈ joint.rests := by
  have crowd := (factoring.origin joint mem).2
  obtain ⟨body, inside⟩ := List.exists_mem_of_length_pos (Nat.zero_lt_of_lt crowd)
  obtain ⟨rest, member, _⟩ := Joint.exists_rest inside
  exact ⟨rest, member⟩

theorem eq_of_fresh_eq (factoring : G.Factoring joints) {other : Joint} (mem : joint ∈ joints)
    (member : other ∈ joints) (same : joint.fresh = other.fresh) : joint = other :=
  List.inj_on_of_nodup_map factoring.distinct mem member same

theorem mem_nonTerminals_of_mem (factoring : G.Factoring joints) {symbol : Symbol}
    (mem : symbol ∈ G.nonTerminals) : symbol ∈ G.factorDirectly.nonTerminals :=
  (factoring.mem_nonTerminals symbol).mpr (Or.inl mem)

private theorem symbol_cases (factoring : G.Factoring joints)
    (mem : (head, body) ∈ G.factorDirectly.table.productions) {symbol : Symbol}
    (inside : symbol ∈ body) :
    (∃ joint ∈ joints, symbol = joint.fresh) ∨
      ∃ head body, (head, body) ∈ G.table.productions ∧ symbol ∈ body := by
  rcases (factoring.mem_productions head body).mp mem with
    ⟨old, _⟩ | ⟨joint, member, rfl, rfl⟩ | ⟨joint, member, rfl, rest⟩
  · exact Or.inr ⟨head, body, old, inside⟩
  · rcases List.mem_append.mp inside with inside | inside
    · obtain ⟨rest, left⟩ := factoring.exists_mem_rests member
      exact Or.inr ⟨_, _, factoring.mem_of_rest member left, List.mem_append_left rest inside⟩
    · exact Or.inl ⟨joint, member, List.mem_singleton.mp inside⟩
  · exact Or.inr ⟨_, _, factoring.mem_of_rest member rest, List.mem_append_right _ inside⟩

theorem wellFormed (factoring : G.Factoring joints) (fits : G.WellFormed) :
    G.factorDirectly.WellFormed := by
  have begins := factoring.mem_nonTerminals_of_mem fits.start_mem
  refine (contextFree_withTable G _).wellFormed begins fun head body mem symbol inside => ?_
  rcases factoring.symbol_cases mem inside with ⟨joint, member, rfl⟩ | ⟨_, _, old, inside⟩
  · exact ⟨Or.inl ((factoring.mem_nonTerminals _).mpr (Or.inr ⟨joint, member, rfl⟩)),
      (factoring.new joint member).2⟩
  · refine ⟨(fits.body_declared old inside).imp_left factoring.mem_nonTerminals_of_mem, ?_⟩
    rintro rfl
    exact fits.body_visible old inside

theorem separated (factoring : G.Factoring joints) (apart : G.Separated) :
    G.factorDirectly.Separated := by
  refine ⟨factoring.wellFormed apart.fits, contextFree_withTable G _,
    fun symbol known terminal => ?_⟩
  rcases (factoring.mem_nonTerminals symbol).mp known with old | ⟨joint, member, rfl⟩
  · exact apart.disjoint symbol old terminal
  · exact (factoring.new joint member).1 (mem_symbols_of_terminal terminal)

/-- What a symbol of the factored grammar stands for: a new one for the words of its rests. -/
def Means (G : Grammar) (joints : List Joint) (symbol : Symbol) (word : Word) : Prop :=
  (∃ joint ∈ joints, symbol = joint.fresh ∧ ∃ rest ∈ joint.rests, G.Derives rest word) ∨
  (symbol ∈ G.symbols ∧ G.Derives [symbol] word)

private theorem derives_of_spelled (factoring : G.Factoring joints) {u : Word}
    (declared : ∀ symbol ∈ u, symbol ∈ G.symbols) (spelled : Spelled (Means G joints) u word) :
    G.Derives u word := by
  refine spelled.derives ?_
  rintro symbol mem v (⟨joint, member, rfl, _⟩ | ⟨_, derivation⟩)
  · exact absurd (declared _ mem) (factoring.new joint member).1
  · exact derivation

private theorem means_of_body (factoring : G.Factoring joints) (fits : G.WellFormed)
    (free : G.ContextFree) (mem : (head, body) ∈ G.factorDirectly.table.productions)
    (spelled : Spelled (Means G joints) body word) : Means G joints head word := by
  rcases (factoring.mem_productions head body).mp mem with
    ⟨old, _⟩ | ⟨joint, member, rfl, rfl⟩ | ⟨joint, member, rfl, rest⟩
  · have derivation := factoring.derives_of_spelled (fits.body_mem_symbols old) spelled
    exact Or.inr ⟨mem_symbols_of_nonTerminal (free.head_mem old),
      (Derives.of_production old).trans derivation⟩
  · obtain ⟨front, back, rfl, left, right⟩ := spelled_append.mp spelled
    rcases spelled_singleton.mp right with ⟨other, found, same, rest, choice, later⟩ | ⟨known, _⟩
    · -- The new symbol at the end stands for rests of this joint and of no other one.
      obtain rfl := factoring.eq_of_fresh_eq member found same
      have old := factoring.mem_of_rest member choice
      have declared (symbol : Symbol) (inside : symbol ∈ joint.stem) : symbol ∈ G.symbols :=
        fits.body_mem_symbols old symbol (List.mem_append_left rest inside)
      have first := factoring.derives_of_spelled declared left
      exact Or.inr ⟨mem_symbols_of_nonTerminal (free.head_mem old),
        (Derives.of_production old).trans (first.append later)⟩
    · exact absurd known (factoring.new joint member).1
  · have old := factoring.mem_of_rest member rest
    have declared (symbol : Symbol) (inside : symbol ∈ body) : symbol ∈ G.symbols :=
      fits.body_mem_symbols old symbol (List.mem_append_right _ inside)
    exact Or.inl ⟨joint, member, rfl, body, rest, factoring.derives_of_spelled declared spelled⟩

private theorem derives_of_old (factoring : G.Factoring joints) (free : G.ContextFree) {u : Word}
    (derivation : G.Derives u word) : G.factorDirectly.Derives u word := by
  refine derivation.of_productions free fun head body mem => ?_
  by_cases crowded : Crowded (G.table.bodies head) body
  · obtain ⟨symbol, begins, crowd⟩ := crowded
    obtain ⟨joint, member, rfl, rfl⟩ := factoring.complete head symbol crowd
    have inside : body ∈ joint.group := by
      rw [Joint.group, (factoring.origin joint member).1]
      exact mem_groupOf.mpr ⟨mem_bodies_table_iff.mpr mem, begins⟩
    obtain ⟨rest, choice, rfl⟩ := Joint.exists_rest inside
    have begun : G.factorDirectly.Derives [joint.head] (joint.stem ++ [joint.fresh]) :=
      .of_production ((factoring.mem_productions _ _).mpr
        (Or.inr (Or.inl ⟨joint, member, rfl, rfl⟩)))
    have ended : G.factorDirectly.Derives [joint.fresh] rest :=
      .of_production ((factoring.mem_productions _ _).mpr
        (Or.inr (Or.inr ⟨joint, member, rfl, choice⟩)))
    exact begun.trans (ended.append_left joint.stem)
  · exact .of_production ((factoring.mem_productions head body).mpr (Or.inl ⟨mem, crowded⟩))

/-- Words over the symbols of a grammar are derived after factoring exactly as before. -/
theorem derives_iff (factoring : G.Factoring joints) (fits : G.WellFormed) (free : G.ContextFree)
    {u : Word} (declared : ∀ symbol ∈ u, symbol ∈ G.symbols)
    (final : ∀ symbol ∈ word, symbol ∈ G.symbols) :
    G.factorDirectly.Derives u word ↔ G.Derives u word := by
  refine ⟨fun derivation => ?_, factoring.derives_of_old free⟩
  have kept : Spelled (Means G joints) word word :=
    spelled_self fun symbol mem => Or.inr ⟨final symbol mem, .refl⟩
  refine factoring.derives_of_spelled declared (Spelled.of_derives (contextFree_withTable G _) ?_
    derivation kept)
  exact fun head body mem v => factoring.means_of_body fits free mem

theorem leftFactored (factoring : G.Factoring joints) (free : G.ContextFree)
    (settled : ∀ symbol ∈ G.factorDirectly.nonTerminals, symbol ∈ G.nonTerminals) :
    G.LeftFactored := by
  intro head symbol u v first second
  by_contra different
  obtain ⟨A, _, single, member⟩ := free.exists_head first
  obtain ⟨_, _, single', member'⟩ := free.exists_head second
  obtain rfl := (List.cons.inj (single.symm.trans single')).1
  have inside : symbol :: u ∈ groupOf (G.table.bodies A) symbol :=
    mem_groupOf.mpr ⟨mem_bodies_table_iff.mpr member, rfl⟩
  have inside' : symbol :: v ∈ groupOf (G.table.bodies A) symbol :=
    mem_groupOf.mpr ⟨mem_bodies_table_iff.mpr member', rfl⟩
  have crowd := two_le_length_of_ne inside inside' fun same => different (List.cons.inj same).2
  obtain ⟨joint, mem, _⟩ := factoring.complete A symbol crowd
  have known := settled joint.fresh ((factoring.mem_nonTerminals _).mpr (Or.inr ⟨joint, mem, rfl⟩))
  exact (factoring.new joint mem).1 (mem_symbols_of_nonTerminal known)

end Factoring

end Factoring

end LanguageTheory.Grammar

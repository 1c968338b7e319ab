import LanguageTheory.Proofs.Grammar.Factorization

/-!
What one pass of left factoring leaves. The stem of a joint is the longest common start of the
bodies that it joins, so it is not empty and the rests do not all begin alike. Joints are made at
different places, each for all bodies that begin with its symbol there, so the bodies of an old head
begin with different symbols. Where no two bodies of a head began alike before, the pass gives the
grammar back (`LeftFactored.factorDirectly_eq`).
-/

set_option autoImplicit false
set_option relaxedAutoImplicit false

namespace LanguageTheory.Grammar

variable {G : Grammar}

section Rests

namespace Joint

variable {joint : Joint}

private theorem group_ne_nil (crowd : 2 ≤ joint.group.length) : joint.group ≠ [] :=
  List.ne_nil_of_length_pos (Nat.zero_lt_of_lt crowd)

private theorem head?_stem (crowd : 2 ≤ joint.group.length) :
    joint.stem.head? = some joint.first := by
  have begun : [joint.first] <+: joint.stem := by
    refine commonStartOfAll_longest (group_ne_nil crowd) fun body mem => ?_
    obtain ⟨rest, rfl⟩ := List.head?_eq_some_iff.mp (mem_groupOf.mp mem).2
    exact ⟨rest, rfl⟩
  obtain ⟨rest, same⟩ := begun
  exact List.head?_eq_some_iff.mpr ⟨rest, same.symm⟩

/-- If all rests began with one symbol, the joined bodies would have more in common than the
stem. -/
private theorem exists_rest_apart (crowd : 2 ≤ joint.group.length) (symbol : Symbol) :
    ∃ rest ∈ joint.rests, rest.head? ≠ some symbol := by
  by_contra none
  have longer : joint.stem ++ [symbol] <+: joint.stem := by
    refine commonStartOfAll_longest (group_ne_nil crowd) fun body mem => ?_
    obtain ⟨rest, member, rfl⟩ := exists_rest mem
    have begins : rest.head? = some symbol := by_contra fun apart => none ⟨rest, member, apart⟩
    obtain ⟨tail, rfl⟩ := List.head?_eq_some_iff.mp begins
    exact (List.prefix_append_right_inj _).mpr ⟨tail, rfl⟩
  have shorter := longer.length_le
  rw [List.length_append, List.length_singleton] at shorter
  exact Nat.not_succ_le_self _ shorter

private theorem exists_rests_ne (distinct : joint.bodies.Nodup) (crowd : 2 ≤ joint.group.length) :
    ∃ rest ∈ joint.rests, ∃ other ∈ joint.rests, rest ≠ other := by
  obtain ⟨u, first, v, second, different⟩ := exists_ne_of_two_le_length (distinct.filter _) crowd
  obtain ⟨rest, left, rfl⟩ := exists_rest first
  obtain ⟨other, right, rfl⟩ := exists_rest second
  exact ⟨rest, left, other, right, fun same => different (congrArg (joint.stem ++ ·) same)⟩

end Joint

end Rests

section Bodies

private theorem eq_of_alone {bodies : List Word} {u v : Word} (first : u ∈ bodies)
    (second : v ∈ bodies) (alone : ¬ Crowded bodies u) (alike : u.head? = v.head?) : u = v := by
  cases begins : u.head? with
  | none =>
    rw [begins] at alike
    exact (List.head?_eq_none_iff.mp begins).trans (List.head?_eq_none_iff.mp alike.symm).symm
  | some symbol =>
    by_contra different
    have inside := mem_groupOf.mpr ⟨first, begins⟩
    have inside' := mem_groupOf.mpr ⟨second, alike ▸ begins⟩
    exact alone ⟨symbol, begins, two_le_length_of_ne inside inside' different⟩

namespace Factoring

variable {joints : List Joint} {joint : Joint} {head : Symbol} {body u v : Word}

private theorem head_known (factoring : G.Factoring joints) (free : G.ContextFree)
    (mem : joint ∈ joints) :
    joint.head ∈ G.nonTerminals := by
  obtain ⟨rest, member⟩ := factoring.exists_mem_rests mem
  exact free.head_mem (factoring.mem_of_rest mem member)

private theorem fresh_not_mem (factoring : G.Factoring joints) (mem : joint ∈ joints) :
    joint.fresh ∉ G.nonTerminals :=
  fun known => (factoring.new joint mem).1 (mem_symbols_of_nonTerminal known)

private theorem old_iff (factoring : G.Factoring joints) (known : head ∈ G.nonTerminals) :
    (head, body) ∈ G.factorDirectly.table.productions ↔
      (body ∈ G.table.bodies head ∧ ¬ Crowded (G.table.bodies head) body) ∨
      ∃ joint ∈ joints, head = joint.head ∧ body = joint.stem ++ [joint.fresh] := by
  rw [factoring.mem_productions, ← or_assoc, or_iff_left, mem_bodies_table_iff]
  rintro ⟨joint, mem, rfl, _⟩
  exact factoring.fresh_not_mem mem known

private theorem fresh_iff (factoring : G.Factoring joints) (free : G.ContextFree)
    (mem : joint ∈ joints) :
    (joint.fresh, body) ∈ G.factorDirectly.table.productions ↔ body ∈ joint.rests := by
  have new := factoring.fresh_not_mem mem
  rw [factoring.mem_productions]
  constructor
  · rintro (⟨old, _⟩ | ⟨other, member, same, _⟩ | ⟨other, member, same, rest⟩)
    · exact absurd (free.head_mem old) new
    · exact absurd (same ▸ factoring.head_known free member) new
    · exact factoring.eq_of_fresh_eq mem member same ▸ rest
  · exact fun rest => Or.inr (Or.inr ⟨joint, mem, rfl, rest⟩)

private theorem begins_apart (factoring : G.Factoring joints) (mem : joint ∈ joints)
    (alone : ¬ Crowded (G.table.bodies joint.head) body) : body.head? ≠ some joint.first := by
  intro begins
  obtain ⟨same, crowd⟩ := factoring.origin joint mem
  rw [Joint.group, same] at crowd
  exact alone ⟨joint.first, begins, crowd⟩

private theorem head?_joined (factoring : G.Factoring joints) (mem : joint ∈ joints) :
    (joint.stem ++ [joint.fresh]).head? = some joint.first := by
  obtain ⟨rest, same⟩ := List.head?_eq_some_iff.mp (Joint.head?_stem (factoring.origin joint mem).2)
  rw [same]
  rfl

private theorem eq_of_head?_eq (factoring : G.Factoring joints) (known : head ∈ G.nonTerminals)
    (first : (head, u) ∈ G.factorDirectly.table.productions)
    (second : (head, v) ∈ G.factorDirectly.table.productions) (alike : u.head? = v.head?) :
    u = v := by
  rcases (factoring.old_iff known).mp first with ⟨mem, alone⟩ | ⟨joint, mem, rfl, rfl⟩
  · rcases (factoring.old_iff known).mp second with ⟨mem', _⟩ | ⟨joint, mem', rfl, rfl⟩
    · exact eq_of_alone mem mem' alone alike
    · exact absurd (alike.trans (factoring.head?_joined mem')) (factoring.begins_apart mem' alone)
  · rw [factoring.head?_joined mem] at alike
    rcases (factoring.old_iff known).mp second with ⟨_, alone⟩ | ⟨other, mem', same, rfl⟩
    · exact absurd alike.symm (factoring.begins_apart mem alone)
    · rw [factoring.head?_joined mem'] at alike
      have place : joint.place = other.place := Prod.ext same (Option.some.inj alike)
      rw [List.inj_on_of_nodup_map factoring.places mem mem' place]

end Factoring

end Bodies

section Settled

variable {bodies pending : List Word} {treated : List Symbol} {state : Factored}

private theorem factorBodies_eq_of_apart (apart : ∀ symbol, (groupOf bodies symbol).length < 2) :
    factorBodies bodies treated state pending =
      { state with bodies := state.bodies.insertMany pending } := by
  induction pending generalizing state with
  | nil => rfl
  | cons body pending ih =>
    cases body with
    | nil => exact ih
    | cons symbol rest => exact (factorBodies_keep (apart symbol)).trans ih

private theorem factorEntries_eq_self {entries : List (Symbol × OrderedSet Word)}
    (apart : ∀ e ∈ entries, ∀ symbol, (groupOf e.2.toList symbol).length < 2) (pool : SymbolPool) :
    factorEntries pool entries = entries := by
  induction entries with
  | nil => rfl
  | cons e entries ih =>
    obtain ⟨here, later⟩ := List.forall_mem_cons.mp apart
    have copied : OrderedSet.empty.insertMany e.2.toList = e.2 := OrderedSet.ofList_toList e.2
    rw [factorEntries, factorBodies_eq_of_apart here, copied, ih later]
    rfl

private theorem LeftFactored.group_lt_two (factored : G.LeftFactored) (head symbol : Symbol) :
    (groupOf (G.table.bodies head) symbol).length < 2 := by
  by_contra crowd
  obtain ⟨u, first, v, second, different⟩ :=
    exists_ne_of_two_le_length ((G.table.nodup_bodies head).filter _) (Nat.not_lt.mp crowd)
  obtain ⟨mem, begins⟩ := mem_groupOf.mp first
  obtain ⟨mem', begins'⟩ := mem_groupOf.mp second
  obtain ⟨rest, rfl⟩ := List.head?_eq_some_iff.mp begins
  obtain ⟨other, rfl⟩ := List.head?_eq_some_iff.mp begins'
  have same := factored [head] symbol rest other (mem_table_iff.mp (mem_bodies_table_iff.mp mem))
    (mem_table_iff.mp (mem_bodies_table_iff.mp mem'))
  exact different (congrArg (symbol :: ·) same)

theorem LeftFactored.factorDirectly_eq (factored : G.LeftFactored) (free : G.ContextFree)
    (filled : G.rules.Filled) : G.factorDirectly = G := by
  have apart : ∀ e ∈ G.table.entries, ∀ symbol, (groupOf e.2.toList symbol).length < 2 := by
    rintro ⟨head, bodies⟩ mem symbol
    have few := factored.group_lt_two head symbol
    rwa [RuleTable.bodies_of_mem mem] at few
  rw [factorDirectly, factorEntries_eq_self apart, OrderedTable.ofList_entries,
    withTable_table free filled]

end Settled

/-- Left factoring succeeds on every context-free grammar. The non-terminals derive the words of
terminals that they derived; the bodies of each of them begin with different symbols, and at most
one is empty; each new non-terminal has several bodies, which do not all begin with one symbol; and
nothing changes where no head had two bodies that begin with the same symbol. -/
theorem directFactorization_exact (whole : G.Consistent) (free : G.ContextFree) :
    ∃ H, G.directFactorization = .ok H ∧
      (∀ A ∈ G.nonTerminals, ∀ word, G.IsTerminalWord word →
        (H.Derives [A] word ↔ G.Derives [A] word)) ∧
      (∀ A ∈ G.nonTerminals, ((H.rules.bodies [A]).toList.map List.head?).Nodup) ∧
      (∀ A ∈ H.nonTerminals, A ∉ G.nonTerminals → 2 ≤ (H.rules.bodies [A]).size ∧
        ∀ symbol, ∃ body ∈ H.rules.bodies [A], body.head? ≠ some symbol) ∧
      (G.LeftFactored → H = G) := by
  obtain ⟨joints, factoring⟩ := exists_factoring free
  have listed {A : Symbol} {body : Word} : body ∈ G.factorDirectly.rules.bodies [A] ↔
      (A, body) ∈ G.factorDirectly.table.productions := by
    rw [← OrderedSet.mem_toList, toList_bodies, mem_bodies_table_iff]
  refine ⟨_, directFactorization_eq free, fun A known word terminals => ?_, fun A known => ?_,
    fun A known new => ?_, fun factored => factored.factorDirectly_eq free whole.filled⟩
  · refine factoring.derives_iff whole.fits free ?_ fun symbol mem =>
      mem_symbols_of_terminal (terminals symbol mem)
    exact List.forall_mem_singleton.mpr (mem_symbols_of_nonTerminal known)
  · refine List.Nodup.map_on (fun u first v second alike => ?_) (OrderedSet.nodup _)
    exact factoring.eq_of_head?_eq known (listed.mp first) (listed.mp second) alike
  · obtain ⟨joint, mem, rfl⟩ := ((factoring.mem_nonTerminals A).mp known).resolve_left new
    obtain ⟨same, crowd⟩ := factoring.origin joint mem
    have bodies {body : Word} : body ∈ G.factorDirectly.rules.bodies [joint.fresh] ↔
        body ∈ joint.rests := listed.trans (factoring.fresh_iff free mem)
    refine ⟨?_, fun symbol => ?_⟩
    · obtain ⟨u, first, v, second, different⟩ :=
        Joint.exists_rests_ne (same ▸ G.table.nodup_bodies joint.head) crowd
      exact two_le_length_of_ne (bodies.mpr first) (bodies.mpr second) different
    · obtain ⟨rest, member, apart⟩ := Joint.exists_rest_apart crowd symbol
      exact ⟨rest, bodies.mpr member, apart⟩

/-- Two groups of bodies are joined, and the bodies of one of them have a common start with a rest
that is empty. -/
theorem directFactorization_exact_two_groups :
    ∃ G H, ofProductions (OrderedSet.ofList ["S", "A"]) (OrderedSet.ofList ["a", "b", "c"]) "S"
        [⟨["S"], ["a", "b", "c"]⟩, ⟨["S"], ["b"]⟩, ⟨["S"], ["a", "b"]⟩, ⟨["S"], []⟩,
          ⟨["S"], ["a", "b", "c", "S"]⟩, ⟨["S"], ["b", "A"]⟩, ⟨["A"], ["a"]⟩] = .ok G ∧
      G.Consistent ∧ G.ContextFree ∧ G.directFactorization = .ok H ∧ H.Derives ["S"] ["a", "b"] ∧
      ((H.rules.bodies ["S"]).toList.map List.head?).Nodup ∧ 2 ≤ (H.rules.bodies ["Δ"]).size ∧
      (∃ body ∈ H.rules.bodies ["Δ"], body.head? ≠ some "c") ∧ 2 ≤ (H.rules.bodies ["Γ"]).size := by
  obtain ⟨G, H, built, free, factored, start, letters, production, first, second⟩ :
      ∃ G H, ofProductions (OrderedSet.ofList ["S", "A"]) (OrderedSet.ofList ["a", "b", "c"]) "S"
          [⟨["S"], ["a", "b", "c"]⟩, ⟨["S"], ["b"]⟩, ⟨["S"], ["a", "b"]⟩, ⟨["S"], []⟩,
            ⟨["S"], ["a", "b", "c", "S"]⟩, ⟨["S"], ["b", "A"]⟩, ⟨["A"], ["a"]⟩] = .ok G ∧
        G.ContextFree ∧ G.directFactorization = .ok H ∧ "S" ∈ G.nonTerminals ∧
        (∀ symbol ∈ ["a", "b"], symbol ∈ G.terminals) ∧ ⟨["S"], ["a", "b"]⟩ ∈ G.rules.productions ∧
        ("Δ" ∈ H.nonTerminals ∧ "Δ" ∉ G.nonTerminals) ∧
        ("Γ" ∈ H.nonTerminals ∧ "Γ" ∉ G.nonTerminals) :=
    ⟨_, _, rfl, by decide, rfl, by decide, by decide, by decide, by decide, by decide⟩
  have whole := consistent_of_ofProductions built
  obtain ⟨H', factored', words, apart, several, _⟩ := directFactorization_exact whole free
  obtain rfl : H = H' := Except.ok.inj (factored.symm.trans factored')
  obtain ⟨many, different⟩ := several "Δ" first.1 first.2
  exact ⟨G, H, built, whole, free, factored,
    (words "S" start _ letters).mpr (.single (Step.of_mem production)), apart "S" start, many,
    different "c", (several "Γ" second.1 second.2).1⟩

end LanguageTheory.Grammar

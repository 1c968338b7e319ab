import Mathlib.Data.List.Nodup
import LanguageTheory.Proofs.Grammar.Construction
import LanguageTheory.Record

/-!
Stored grammars. A consistent grammar is read back from its record just as it was
(`Consistent.toGrammar_toRecord`). Its record is canonical: nothing is listed twice, and an empty
body is the one symbol `ε`. These are the records that reading and writing reproduce
(`toRecord_eq_iff`).
-/

set_option autoImplicit false
set_option relaxedAutoImplicit false

namespace LanguageTheory

variable {G : Grammar} {record : GrammarRecord}

namespace GrammarRecord

private theorem of_toGrammar (read : record.toGrammar = .ok G) : G.rank = record.rank ∧
    Grammar.ofProductions (OrderedSet.ofList record.nonTerminals)
      (OrderedSet.ofList record.terminals)
      record.start (record.rules.flatMap fun rule => rule.bodies.map (Production.mk rule.head)) =
        .ok G := by
  unfold toGrammar at read
  split at read
  · cases read
  · rename_i built
    split at read
    · cases read
    · rename_i rank
      obtain rfl := Except.ok.inj read
      exact ⟨not_not.mp rank, built⟩

/-- Nothing is listed twice, every head has a body, and `ε` is written for empty bodies only. -/
structure Canonical (record : GrammarRecord) : Prop where
  terminals : record.terminals.Nodup
  nonTerminals : record.nonTerminals.Nodup
  heads : (record.rules.map RuleRecord.head).Nodup
  filled : ∀ rule ∈ record.rules, rule.bodies ≠ []
  bodies : ∀ rule ∈ record.rules, rule.bodies.Nodup
  spelled : ∀ rule ∈ record.rules, ∀ body ∈ rule.bodies,
    body = [Symbol.epsilon] ∨ (body ≠ [] ∧ Symbol.epsilon ∉ body)

private theorem withoutEpsilon_storedBody {body : Word} (visible : Symbol.epsilon ∉ body) :
    Grammar.withoutEpsilon (storedBody body) = body := by
  cases body with
  | nil => rfl
  | cons symbol rest => exact Grammar.withoutEpsilon_eq_self visible

private theorem storedBody_withoutEpsilon {body : Word}
    (spelled : body = [Symbol.epsilon] ∨ (body ≠ [] ∧ Symbol.epsilon ∉ body)) :
    storedBody (Grammar.withoutEpsilon body) = body := by
  obtain rfl | ⟨filled, visible⟩ := spelled
  · rfl
  · rw [Grammar.withoutEpsilon_eq_self visible, storedBody, if_neg]
    exact fun empty => filled (List.isEmpty_iff.mp empty)

private theorem storedBody_spelled {body : Word} (visible : Symbol.epsilon ∉ body) :
    storedBody body = [Symbol.epsilon] ∨
      (storedBody body ≠ [] ∧ Symbol.epsilon ∉ storedBody body) := by
  cases body with
  | nil => exact Or.inl rfl
  | cons symbol rest => exact Or.inr ⟨List.cons_ne_nil _ _, visible⟩

end GrammarRecord

namespace Grammar

private theorem WellFormed.stored_visible (fits : G.WellFormed) {e : Word × OrderedSet Word}
    (mem : e ∈ G.rules.entries) {body : Word} (member : body ∈ e.2) : Symbol.epsilon ∉ body :=
  fits.visible ⟨e.1, body⟩ (List.mem_flatMap.mpr ⟨e, mem, List.mem_map.mpr ⟨body, member, rfl⟩⟩)

private theorem WellFormed.stored_productions (fits : G.WellFormed) (id name : String) :
    ((G.toRecord id name).rules.flatMap fun rule => rule.bodies.map (Production.mk rule.head)).map
      (fun p => { p with body := withoutEpsilon p.body }) = G.rules.productions := by
  rw [toRecord, List.flatMap_map, List.map_flatMap, Rules.productions]
  refine List.flatMap_congr fun e mem => ?_
  rw [List.map_map, List.map_map]
  refine List.map_congr_left fun body member => ?_
  change Production.mk e.1 (withoutEpsilon (GrammarRecord.storedBody body)) = _
  rw [GrammarRecord.withoutEpsilon_storedBody (fits.stored_visible mem member)]

theorem Consistent.toGrammar_toRecord (whole : G.Consistent) (id name : String) :
    (G.toRecord id name).toGrammar = .ok G := by
  have listed := whole.fits.stored_productions id name
  have stored {p : Production} (mem : p ∈ (G.toRecord id name).rules.flatMap fun rule =>
      rule.bodies.map (Production.mk rule.head)) :
      Production.mk p.head (withoutEpsilon p.body) ∈ G.rules.productions := by
    rw [← listed]
    exact List.mem_map.mpr ⟨p, mem, rfl⟩
  obtain ⟨rules, built, _⟩ := ofProductions_eq_ok whole.fits.start_mem
    (fun p mem => whole.fits.head_ne ⟨p.head, withoutEpsilon p.body⟩ (stored mem))
    (fun p mem => whole.fits.declared ⟨p.head, withoutEpsilon p.body⟩ (stored mem))
  obtain rfl : rules = G.rules := by
    have parts := parts_of_ofProductions built
    rw [listed, Rules.foldl_add_productions whole.filled] at parts
    exact congrArg Grammar.rules parts
  have again : ofProductions (OrderedSet.ofList (G.toRecord id name).nonTerminals)
      (OrderedSet.ofList (G.toRecord id name).terminals) (G.toRecord id name).start
      ((G.toRecord id name).rules.flatMap fun rule => rule.bodies.map (Production.mk rule.head)) =
        .ok G := by
    simpa only [toRecord, OrderedSet.ofList_toList] using built
  rw [GrammarRecord.toGrammar, again]
  exact if_neg (not_not.mpr rfl)

private theorem Consistent.canonical_toRecord (whole : G.Consistent) (id name : String) :
    (G.toRecord id name).Canonical where
  terminals := G.terminals.nodup
  nonTerminals := G.nonTerminals.nodup
  heads := by
    rw [toRecord, List.map_map]
    exact G.rules.nodup
  filled := by
    intro rule mem
    obtain ⟨e, stored, rfl⟩ := List.mem_map.mp mem
    exact fun none => whole.filled e stored (List.map_eq_nil_iff.mp none)
  bodies := by
    intro rule mem
    obtain ⟨e, stored, rfl⟩ := List.mem_map.mp mem
    refine List.Nodup.map_on ?_ e.2.nodup
    intro u hu v hv same
    rw [← GrammarRecord.withoutEpsilon_storedBody (whole.fits.stored_visible stored hu), same,
      GrammarRecord.withoutEpsilon_storedBody (whole.fits.stored_visible stored hv)]
  spelled := by
    intro rule mem body member
    obtain ⟨e, stored, rfl⟩ := List.mem_map.mp mem
    obtain ⟨word, inside, rfl⟩ := List.mem_map.mp member
    exact GrammarRecord.storedBody_spelled (whole.fits.stored_visible stored inside)

end Grammar

namespace GrammarRecord

private theorem Canonical.entries (canonical : record.Canonical) (read : record.toGrammar = .ok G) :
    G.rules.entries = record.rules.map fun rule =>
      (rule.head, OrderedSet.ofList (rule.bodies.map Grammar.withoutEpsilon)) := by
  have listed : (record.rules.flatMap fun rule => rule.bodies.map (Production.mk rule.head)).map
      (fun p => { p with body := Grammar.withoutEpsilon p.body }) =
      (record.rules.map fun rule => (rule.head, rule.bodies.map Grammar.withoutEpsilon)).flatMap
        fun e => e.2.map (Production.mk e.1) := by
    simp [List.map_flatMap, List.flatMap_map, Function.comp_def]
  have rules := congrArg Grammar.rules (Grammar.parts_of_ofProductions (of_toGrammar read).2)
  rw [rules, listed, Rules.entries_foldl_add]
  · simp [OrderedTable.empty, Function.comp_def]
  · simpa [OrderedTable.keys, OrderedTable.empty, Function.comp_def] using canonical.heads
  · simpa using canonical.filled

private theorem Canonical.reproduced (canonical : record.Canonical)
    (read : record.toGrammar = .ok G) :
    G.toRecord record.id record.name = record := by
  obtain ⟨rank, built⟩ := of_toGrammar read
  have parts := Grammar.parts_of_ofProductions built
  have terminals : G.terminals.toList = record.terminals := by
    rw [parts]
    exact OrderedSet.toList_ofList_eq_iff.mpr canonical.terminals
  have nonTerminals : G.nonTerminals.toList = record.nonTerminals := by
    rw [parts]
    exact OrderedSet.toList_ofList_eq_iff.mpr canonical.nonTerminals
  have start : G.start = record.start := by rw [parts]
  have rules : (G.rules.entries.map fun e => RuleRecord.mk e.1 (e.2.toList.map storedBody)) =
      record.rules := by
    rw [canonical.entries read, List.map_map]
    refine (List.map_congr_left fun rule mem => ?_).trans (List.map_id record.rules)
    have spelled (body : Word) (member : body ∈ rule.bodies) :=
      storedBody_withoutEpsilon (canonical.spelled rule mem body member)
    have distinct : (rule.bodies.map Grammar.withoutEpsilon).Nodup := by
      refine List.Nodup.map_on (fun u hu v hv same => ?_) (canonical.bodies rule mem)
      rw [← spelled u hu, same, spelled v hv]
    change RuleRecord.mk rule.head ((OrderedSet.ofList _).toList.map storedBody) = rule
    rw [OrderedSet.toList_ofList_eq_iff.mpr distinct, List.map_map]
    exact congrArg (RuleRecord.mk rule.head)
      ((List.map_congr_left spelled).trans (List.map_id rule.bodies))
  rw [Grammar.toRecord, rank, terminals, nonTerminals, start, rules]

/-- An accepted record is reproduced exactly if it is canonical. -/
theorem toRecord_eq_iff (read : record.toGrammar = .ok G) :
    G.toRecord record.id record.name = record ↔ record.Canonical := by
  constructor
  · intro same
    rw [← same]
    exact (Grammar.consistent_of_ofProductions (of_toGrammar read).2).canonical_toRecord _ _
  · exact fun canonical => canonical.reproduced read

end GrammarRecord

end LanguageTheory

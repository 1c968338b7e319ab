import LanguageTheory.Proofs.Grammar.Transformation
import LanguageTheory.Proofs.Record.Grammar
import LanguageTheory.Proofs.Record.Machine
import LanguageTheory.Record

/-!
Writing and reading records. Nothing is lost by storing: automata and grammars are read back just as
they were (`stored_exact`). The other way round, a record that is accepted is reproduced exactly if
it is canonical (`reproduced_exact`); repetitions, heads without bodies and an `ε` inside a body are
accepted as well and do not come back (`not_forall_reproduced`).
-/

set_option autoImplicit false
set_option relaxedAutoImplicit false

namespace LanguageTheory

/-- Automata that were built from parts, and grammars of every origin, are what their records
describe, under every id and name. -/
theorem stored_exact (id name : String) :
    (∀ states alphabet transitions A, Automaton.ofParts states alphabet transitions = .ok A →
      (A.toRecord id name).toAutomaton = .ok A) ∧
    ∀ G : Grammar, G.Made → (G.toRecord id name).toGrammar = .ok G := by
  constructor
  · intro states alphabet transitions A built
    exact (Automaton.wellFormed_of_ofParts built).toAutomaton_toRecord id name
  · intro G made
    exact made.consistent.toGrammar_toRecord id name

/-- A silent move and the empty body of a new symbol come back from the records. -/
theorem stored_exact_silent_move :
    ∃ (A : Automaton) (G : Grammar), Automaton.ofParts [⟨"p", ⟨true, false⟩⟩, ⟨"f", ⟨false, true⟩⟩]
        (OrderedSet.ofList ["a"]) [.plain "p" "a" "p", .plain "p" Symbol.epsilon "f"] = .ok A ∧
      G.Made ∧ ⟨["Δ"], []⟩ ∈ G.rules.productions ∧
      (A.toRecord "m" "ends silently").toAutomaton = .ok A ∧
      (G.toRecord "g" "").toGrammar = .ok G := by
  obtain ⟨A, H, G, built, read, straight, erases⟩ : ∃ (A : Automaton) (H G : Grammar),
      Automaton.ofParts [⟨"p", ⟨true, false⟩⟩, ⟨"f", ⟨false, true⟩⟩] (OrderedSet.ofList ["a"])
        [.plain "p" "a" "p", .plain "p" Symbol.epsilon "f"] = .ok A ∧
      Grammar.parse "S -> Sa | b" = .ok H ∧
      Grammar.Transformation.removeLeftProduction.apply H = .ok G ∧
      ⟨["Δ"], []⟩ ∈ G.rules.productions :=
    ⟨_, _, _, rfl, rfl, rfl, by decide⟩
  have made : G.Made := .transformed (.text read) straight
  exact ⟨A, G, built, made, erases, (stored_exact "m" "ends silently").1 _ _ _ A built,
    (stored_exact "g" "").2 G made⟩

private theorem ExpressionRecord.toRecord_of_toExpression {record : ExpressionRecord}
    {e : NamedExpression} (read : record.toExpression = .ok e) : e.toRecord = record := by
  unfold toExpression at read
  split at read
  · cases read
  · rename_i kind
    split at read
    · cases read
    · obtain rfl := Except.ok.inj read
      have definitions : (record.definitions.map DefinitionRecord.toDefinition).map
          Definition.toRecord = record.definitions := by
        simp [Function.comp_def]
      rw [NamedExpression.toRecord, definitions, ← not_not.mp kind]

/-- An accepted record of an automaton or of a grammar is reproduced exactly if it is canonical, and
every accepted record of an expression is reproduced. -/
theorem reproduced_exact (machine : MachineRecord) (grammar : GrammarRecord)
    (expression : ExpressionRecord) :
    (∀ A, machine.toAutomaton = .ok A →
      (A.toRecord machine.id machine.name = machine ↔ machine.Canonical)) ∧
    (∀ G, grammar.toGrammar = .ok G →
      (G.toRecord grammar.id grammar.name = grammar ↔ grammar.Canonical)) ∧
    ∀ e, expression.toExpression = .ok e → e.toRecord = expression := by
  exact ⟨fun A read => machine.toRecord_eq_iff read, fun G read => grammar.toRecord_eq_iff read,
    fun e read => expression.toRecord_of_toExpression read⟩

/-- Records of all three kinds are reproduced; a head without bodies is lost. -/
theorem reproduced_exact_three_kinds :
    ∃ (machine : MachineRecord) (grammar lost : GrammarRecord) (expression : ExpressionRecord)
      (A : Automaton) (G H : Grammar) (e : NamedExpression),
      machine.transitions = [⟨"p", "a", "p", none, none⟩] ∧ machine.toAutomaton = .ok A ∧
      A.toRecord machine.id machine.name = machine ∧
      grammar.rules = [⟨["S"], [["a"], [Symbol.epsilon]]⟩] ∧ grammar.toGrammar = .ok G ∧
      G.toRecord grammar.id grammar.name = grammar ∧
      expression.expression = "a*" ∧ expression.toExpression = .ok e ∧
      e.toRecord = expression ∧
      lost.rules = [⟨["S"], [["a"]]⟩, ⟨["A"], []⟩] ∧ lost.toGrammar = .ok H ∧
      H.toRecord lost.id lost.name ≠ lost := by
  obtain ⟨expression, e, text, third⟩ : ∃ (record : ExpressionRecord) (e : NamedExpression),
      record.expression = "a*" ∧ record.toExpression = .ok e :=
    ⟨⟨"x", "", ExpressionRecord.regularKind, "a*", [⟨"d", "b"⟩], []⟩, _, rfl, rfl⟩
  let machine : MachineRecord :=
    ⟨"m", "", .finiteState, true, [⟨"p", true, true⟩], ["a"], [], [⟨"p", "a", "p", none, none⟩]⟩
  let grammar : GrammarRecord :=
    ⟨"g", "", .regular, "S", ["a"], ["S"], [⟨["S"], [["a"], [Symbol.epsilon]]⟩]⟩
  let lost : GrammarRecord :=
    ⟨"h", "", .regular, "S", ["a"], ["S", "A"], [⟨["S"], [["a"]]⟩, ⟨["A"], []⟩]⟩
  have first : machine.toAutomaton = .ok _ := rfl
  have second : grammar.toGrammar = .ok _ := rfl
  have fourth : lost.toGrammar = .ok _ := rfl
  obtain ⟨machines, grammars, expressions⟩ := reproduced_exact machine grammar expression
  refine ⟨machine, grammar, lost, expression, _, _, _, _, rfl, first, (machines _ first).mpr ?_,
    rfl, second, (grammars _ second).mpr ?_, text, third, expressions _ third, rfl, fourth,
    fun same => ?_⟩
  · exact ⟨by decide, by decide⟩
  · exact ⟨by decide, by decide, by decide, by decide, by decide, by decide⟩
  · have canonical := ((reproduced_exact machine lost expression).2.1 _ fourth).mp same
    exact canonical.filled ⟨["A"], []⟩ (by decide) rfl

/-- A record that lists a symbol twice is accepted and comes back with the symbol once. -/
theorem not_forall_reproduced :
    ¬ ((∀ (record : MachineRecord) A, record.toAutomaton = .ok A →
        A.toRecord record.id record.name = record) ∧
      (∀ (record : GrammarRecord) G, record.toGrammar = .ok G →
        G.toRecord record.id record.name = record) ∧
      ∀ (record : ExpressionRecord) e, record.toExpression = .ok e → e.toRecord = record) := by
  rintro ⟨machines, _, _⟩
  let record : MachineRecord := ⟨"m", "twice", .finiteState, true, [⟨"p", true, true⟩],
    ["a", "a"], [], [⟨"p", "a", "p", none, none⟩]⟩
  have read : record.toAutomaton = .ok _ := rfl
  exact absurd (machines record _ read) (by decide)

end LanguageTheory

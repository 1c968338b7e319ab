import Mathlib.Data.List.TakeWhile
import LanguageTheory.Proofs.Grammar.Termination

/-!
What the recognizer reads. Every step takes from the input what it reads, which is a terminal and
never the end marker: where the marker is the top of the stack and comes next, the recognizer
accepts, whether it is the marker behind the input or one that stands in the input. So a run that
accepts has read what is ahead of the first end marker. That is the whole word exactly if the word
holds no end marker, and what comes behind the marker makes no difference (`acceptedInput_exact`).
-/

set_option autoImplicit false
set_option relaxedAutoImplicit false

namespace LanguageTheory

def ParseStep.read? (step : ParseStep) : Option Symbol :=
  match step.action with
  | .read symbol => some symbol
  | _ => none

namespace PredictiveTable

open Grammar

variable {T : PredictiveTable} {G : Grammar} {c d : ParseConfig} {steps : List ParseStep}

def reads (steps : List ParseStep) : Word := steps.filterMap ParseStep.read?

def beforeMarker (word : Word) : Word :=
  word.takeWhile fun symbol => decide (symbol ≠ Symbol.endOfInput)

def Accepting (T : PredictiveTable) (word : Word) : Prop :=
  ∃ steps, T.Completes (T.initial word) steps ∧ accepted steps = true

section BeforeMarker

variable {word : Word} {symbol : Symbol}

private theorem beforeMarker_cons (visible : symbol ≠ Symbol.endOfInput) :
    beforeMarker (symbol :: word) = symbol :: beforeMarker word :=
  List.takeWhile_cons_of_pos (decide_eq_true visible)

private theorem beforeMarker_append_marker (word : Word) :
    beforeMarker (word ++ [Symbol.endOfInput]) = beforeMarker word := by
  induction word with
  | nil => rfl
  | cons symbol word ih =>
    by_cases marker : symbol = Symbol.endOfInput
    · subst marker
      rfl
    · rw [List.cons_append, beforeMarker_cons marker, beforeMarker_cons marker, ih]

private theorem marker_not_mem_beforeMarker (word : Word) :
    Symbol.endOfInput ∉ beforeMarker word := by
  intro mem
  rw [beforeMarker] at mem
  have visible := List.mem_takeWhile_imp mem
  exact of_decide_eq_true visible rfl

private theorem beforeMarker_eq_self_iff : beforeMarker word = word ↔ Symbol.endOfInput ∉ word := by
  constructor
  · intro whole
    have unmarked := marker_not_mem_beforeMarker word
    rwa [whole] at unmarked
  · intro unmarked
    refine List.takeWhile_eq_self_iff.mpr fun symbol mem => decide_eq_true ?_
    rintro rfl
    exact unmarked mem

private theorem headD_beforeMarker (word : Word) :
    (beforeMarker word).headD Symbol.endOfInput = word.headD Symbol.endOfInput := by
  cases word with
  | nil => rfl
  | cons symbol word =>
    by_cases marker : symbol = Symbol.endOfInput
    · subst marker
      rfl
    · rw [beforeMarker_cons marker]
      rfl

private theorem beforeMarker_of_headD (next : word.headD Symbol.endOfInput = Symbol.endOfInput) :
    beforeMarker word = [] := by
  cases word with
  | nil => rfl
  | cons symbol word =>
    obtain rfl : symbol = Symbol.endOfInput := next
    rfl

end BeforeMarker

section Reading

private theorem reads_cons (step : ParseStep) :
    reads (step :: steps) = step.read?.toList ++ reads steps := by
  cases read : step.read? with
  | none => exact List.filterMap_cons_none read
  | some symbol => exact List.filterMap_cons_some read

private theorem beforeMarker_input_eq (goesOn : (T.action c).isFinal = false) :
    beforeMarker c.input =
    (ParseStep.mk c (T.action c)).read?.toList ++ beforeMarker (c.after (T.action c)).input := by
  rcases action_cases (T := T) c with ⟨act, _⟩ | ⟨_, _, _, _, act⟩ |
    ⟨_, _, _, rfl, _, other, act⟩ | act
  · rw [act] at goesOn
    cases goesOn
  · rw [act]
    rfl
  · rw [act]
    exact beforeMarker_cons other
  · rw [act] at goesOn
    cases goesOn

private theorem accepted_cons (step : ParseStep) (more : steps ≠ []) :
    accepted (step :: steps) = accepted steps := by
  rw [accepted, accepted, List.getLast?_cons_of_ne_nil more]

private theorem Completes.ne_nil (run : T.Completes c steps) : steps ≠ [] := by
  cases run with
  | final _ => exact List.cons_ne_nil _ _
  | step _ _ => exact List.cons_ne_nil _ _

private theorem Completes.reads_of_accepted (run : T.Completes c steps)
    (accepts : accepted steps = true) :
    reads steps = beforeMarker c.input := by
  induction run with
  | @final c ends =>
    have act : T.action c = .accept := Option.some.inj (of_decide_eq_true accepts)
    rcases action_cases (T := T) c with ⟨_, _, next⟩ | ⟨_, _, _, _, other⟩ |
      ⟨_, _, _, _, _, _, other⟩ | other
    · rw [beforeMarker_of_headD next, act]
      rfl
    all_goals
      rw [act] at other
      cases other
  | @step c later goesOn rest ih =>
    rw [accepted_cons _ rest.ne_nil] at accepts
    rw [reads_cons, ih accepts, ← beforeMarker_input_eq goesOn]

end Reading

section Terminals

def Stacked (G : Grammar) (c : ParseConfig) : Prop :=
  ∀ symbol ∈ c.stack, symbol ∈ G.nonTerminals ∨ symbol ∈ G.terminals ∨ symbol = Symbol.endOfInput

private theorem Predicts.stacked_initial (predicts : T.Predicts G) (word : Word) :
    Stacked G (T.initial word) := by
  refine List.forall_mem_cons.mpr ⟨Or.inl ?_, List.forall_mem_singleton.mpr (Or.inr (Or.inr rfl))⟩
  exact predicts.start ▸ predicts.fits.start_mem

private theorem Predicts.stacked_after (predicts : T.Predicts G) (stacked : Stacked G c) :
    Stacked G (c.after (T.action c)) := by
  have below : ∀ symbol ∈ c.stack.tail, symbol ∈ G.nonTerminals ∨ symbol ∈ G.terminals ∨
      symbol = Symbol.endOfInput := fun symbol mem => stacked symbol (List.mem_of_mem_tail mem)
  rcases action_cases (T := T) c with ⟨act, _⟩ | ⟨_, _, _, found, act⟩ |
    ⟨_, _, _, rfl, _, _, act⟩ | act
  · rwa [act]
  · rw [act]
    refine List.forall_mem_append.mpr ⟨fun symbol mem => ?_, below⟩
    exact (predicts.fits.body_declared (predicts.body_iff.mp found).1 mem).imp_right Or.inl
  · rw [act]
    exact below
  · rwa [act]

private theorem Predicts.terminal_of_read (predicts : T.Predicts G) (stacked : Stacked G c) :
    ∀ symbol ∈ (ParseStep.mk c (T.action c)).read?, symbol ∈ G.terminals := by
  intro symbol read
  rcases action_cases (T := T) c with ⟨act, _⟩ | ⟨_, _, _, _, act⟩ |
    ⟨a, _, _, rfl, unknown, other, act⟩ | act
  · rw [act] at read
    cases read
  · rw [act] at read
    cases read
  · rw [act] at read
    obtain rfl := Option.some.inj read
    rcases stacked a List.mem_cons_self with known | terminal | marker
    · exact absurd (predicts.nonTerminals ▸ known) unknown
    · exact terminal
    · exact absurd marker other
  · rw [act] at read
    cases read

private theorem Predicts.terminals_of_completes (predicts : T.Predicts G)
    (run : T.Completes c steps) (stacked : Stacked G c) :
    ∀ symbol ∈ reads steps, symbol ∈ G.terminals := by
  induction run with
  | @final c ends =>
    rw [reads_cons]
    refine List.forall_mem_append.mpr
      ⟨fun symbol mem => ?_, fun _ mem => absurd mem List.not_mem_nil⟩
    exact predicts.terminal_of_read stacked symbol (Option.mem_toList.mp mem)
  | @step c later goesOn rest ih =>
    rw [reads_cons]
    refine List.forall_mem_append.mpr ⟨fun symbol mem => ?_, ih (predicts.stacked_after stacked)⟩
    exact predicts.terminal_of_read stacked symbol (Option.mem_toList.mp mem)

end Terminals

section Agreement

/-- The configurations differ at most behind the first end marker of their inputs. -/
structure Agree (c d : ParseConfig) : Prop where
  stack : c.stack = d.stack
  input : beforeMarker c.input = beforeMarker d.input

private theorem Agree.symm (agree : Agree c d) : Agree d c := ⟨agree.stack.symm, agree.input.symm⟩

private theorem Agree.lookahead (agree : Agree c d) : c.lookahead = d.lookahead := by
  rw [ParseConfig.lookahead, ParseConfig.lookahead, ← headD_beforeMarker, agree.input,
    headD_beforeMarker]

private theorem Agree.action (agree : Agree c d) : T.action c = T.action d := by
  rw [PredictiveTable.action, PredictiveTable.action, ParseConfig.top, ParseConfig.top, agree.stack,
    agree.lookahead]

private theorem Agree.after (agree : Agree c d) (goesOn : (T.action c).isFinal = false) :
    Agree (c.after (T.action c)) (d.after (T.action d)) := by
  have goesOn' : (T.action d).isFinal = false := agree.action (T := T) ▸ goesOn
  have first := beforeMarker_input_eq goesOn
  have second := beforeMarker_input_eq goesOn'
  refine ⟨?_, ?_⟩
  · rw [← agree.action]
    cases T.action c with
    | expand head body => exact congrArg (fun stack => body ++ stack.tail) agree.stack
    | read symbol => exact congrArg List.tail agree.stack
    | accept => exact agree.stack
    | reject => exact agree.stack
  · have same : (ParseStep.mk c (T.action c)).read? = (ParseStep.mk d (T.action d)).read? := by
      rw [ParseStep.read?, ParseStep.read?, agree.action]
    rw [agree.input, second, same] at first
    exact (List.append_cancel_left first).symm

private theorem Completes.of_agree (run : T.Completes c steps) (agree : Agree c d) :
    ∃ others, T.Completes d others ∧ others.map ParseStep.action = steps.map ParseStep.action := by
  induction run generalizing d with
  | final ends => exact ⟨_, .final (agree.action (T := T) ▸ ends), by simp [agree.action (T := T)]⟩
  | step goesOn _ ih =>
    obtain ⟨others, run', same⟩ := ih (agree.after goesOn)
    exact ⟨_, .step (agree.action (T := T) ▸ goesOn) run', by simp [agree.action (T := T), same]⟩

private theorem accepted_eq_of_actions {others : List ParseStep}
    (same : others.map ParseStep.action = steps.map ParseStep.action) :
    accepted others = accepted steps := by
  rw [accepted, accepted, ← List.getLast?_map, ← List.getLast?_map, same]

private theorem agree_initial (word : Word) :
    Agree (T.initial word) (T.initial (beforeMarker word)) where
  stack := rfl
  input := by
    have unmarked := beforeMarker_eq_self_iff.mpr (marker_not_mem_beforeMarker word)
    show beforeMarker (word ++ [Symbol.endOfInput]) =
      beforeMarker (beforeMarker word ++ [Symbol.endOfInput])
    rw [beforeMarker_append_marker, beforeMarker_append_marker, unmarked]

private theorem accepting_of_agree {word other : Word}
    (agree : Agree (T.initial word) (T.initial other)) (accepting : T.Accepting word) :
    T.Accepting other := by
  obtain ⟨steps, run, accepts⟩ := accepting
  obtain ⟨others, run', same⟩ := run.of_agree agree
  exact ⟨others, run', (accepted_eq_of_actions same).trans accepts⟩

end Agreement

end PredictiveTable

namespace Grammar

open PredictiveTable

variable {G : Grammar} {T : PredictiveTable}

/-- A run of the recognizer that accepts a word, whatever symbols the word consists of, has read
terminals of the grammar only: those ahead of the first end marker. These are the whole word exactly
if the word holds no end marker. A word is accepted exactly if the part ahead of its first end
marker is. -/
theorem acceptedInput_exact (fits : G.WellFormed) (built : G.predictiveTable = .ok T)
    (word : Word) :
    (∀ steps, T.Completes (T.initial word) steps → accepted steps = true →
      G.recognizeToEnd word = .ok steps ∧ (∀ symbol ∈ reads steps, symbol ∈ G.terminals) ∧
      reads steps = beforeMarker word ∧ (reads steps = word ↔ Symbol.endOfInput ∉ word)) ∧
    (T.Accepting word ↔ T.Accepting (beforeMarker word)) := by
  obtain ⟨predicts, _⟩ := predicts_of_predictiveTable fits built
  refine ⟨fun steps run accepts => ?_, accepting_of_agree (agree_initial word),
    accepting_of_agree (agree_initial word).symm⟩
  have read : reads steps = beforeMarker word :=
    (run.reads_of_accepted accepts).trans (beforeMarker_append_marker word)
  refine ⟨?_, predicts.terminals_of_completes run (predicts.stacked_initial word), read, ?_⟩
  · rw [recognizeToEnd, built]
    exact congrArg Except.ok run.runToEnd_eq
  · rw [read, beforeMarker_eq_self_iff]

/-- Behind `a b` comes an end marker and then another `a`, which is not read. -/
theorem acceptedInput_exact_early_marker :
    ∃ G T steps, ofProductions (OrderedSet.ofList ["S"]) (OrderedSet.ofList ["a", "b"]) "S"
        [⟨["S"], ["a", "S", "b"]⟩, ⟨["S"], []⟩] = .ok G ∧ G.WellFormed ∧ G.predictiveTable = .ok T ∧
      T.Completes (T.initial ["a", "b", "$", "a"]) steps ∧ accepted steps = true ∧
      G.recognizeToEnd ["a", "b", "$", "a"] = .ok steps ∧ reads steps = ["a", "b"] ∧
      T.Accepting ["a", "b"] := by
  obtain ⟨G, T, steps, made, built, run, accepts⟩ :
      ∃ G T steps, ofProductions (OrderedSet.ofList ["S"]) (OrderedSet.ofList ["a", "b"]) "S"
          [⟨["S"], ["a", "S", "b"]⟩, ⟨["S"], []⟩] = .ok G ∧ G.predictiveTable = .ok T ∧
        T.Completes (T.initial ["a", "b", "$", "a"]) steps ∧ accepted steps = true :=
    ⟨_, _, _, rfl, rfl, .step (by decide) (.step (by decide) (.step (by decide) (.step (by decide)
      (.final (by decide))))), by decide⟩
  have fits := wellFormed_of_ofProductions made
  obtain ⟨exact, same⟩ := acceptedInput_exact fits built ["a", "b", "$", "a"]
  obtain ⟨result, _, read, _⟩ := exact steps run accepts
  exact ⟨G, T, steps, made, fits, built, run, accepts, result, read, same.mp ⟨steps, run, accepts⟩⟩

/-- The word `a $ a` is accepted when its first symbol has been read. -/
theorem not_forall_accepted_input_read :
    ¬ ∀ (nonTerminals terminals : Alphabet) (start : Symbol) (productions : List Production)
      (G : Grammar) (T : PredictiveTable) (word : Word) (steps : List ParseStep),
      ofProductions nonTerminals terminals start productions = .ok G → G.predictiveTable = .ok T →
        T.Completes (T.initial word) steps → accepted steps = true →
          reads steps = word ∧ ∀ symbol ∈ reads steps, symbol ∈ G.terminals := by
  intro whole
  obtain ⟨G, T, steps, made, built, run, accepts, read⟩ :
      ∃ G T steps, ofProductions (OrderedSet.ofList ["S"]) (OrderedSet.ofList ["a"]) "S"
          [⟨["S"], ["a"]⟩] = .ok G ∧ G.predictiveTable = .ok T ∧
        T.Completes (T.initial ["a", "$", "a"]) steps ∧ accepted steps = true ∧
        reads steps ≠ ["a", "$", "a"] :=
    ⟨_, _, _, rfl, rfl, .step (by decide) (.step (by decide) (.final (by decide))), by decide,
      by decide⟩
  exact read (whole _ _ _ _ G T _ steps made built run accepts).1

end Grammar

end LanguageTheory

import LanguageTheory.Proofs.Grammar.Termination
import LanguageTheory.Proofs.Grammar.Yields

/-!
The recognizer is right. If a run accepts, its expansions are a leftmost derivation of what was read
from what was on the stack. If the stack yields the rest of the input and is covered by the FOLLOW
sets, no step rejects: FIRST and FOLLOW lead to the body that the derivation uses. Since every run
ends where the end marker is no non-terminal, the recognizer then decides what the grammar generates
(`recognize_exact`).
-/

set_option autoImplicit false
set_option relaxedAutoImplicit false

namespace LanguageTheory

def ParseStep.production? (step : ParseStep) : Option Production :=
  match step.action with
  | .expand head body => some ⟨[head], body⟩
  | _ => none

private theorem Grammar.LeftmostDerivation.cons {G : Grammar} {used : List Production} {u v : Word}
    {a : Symbol} (derivation : G.LeftmostDerivation used u v) (terminal : a ∈ G.terminals) :
    G.LeftmostDerivation used (a :: u) (a :: v) := by
  induction derivation with
  | done word => exact .done (a :: word)
  | @step p used before after word member terminals _ ih =>
    have whole : G.IsTerminalWord (a :: before) := List.forall_mem_cons.mpr ⟨terminal, terminals⟩
    exact LeftmostDerivation.step member whole ih

namespace PredictiveTable

open Grammar

variable {T : PredictiveTable} {G : Grammar}

def expansions (steps : List ParseStep) : List Production := steps.filterMap ParseStep.production?

private theorem accepted_stepsFrom_succ {fuel : Nat} {c : ParseConfig} :
    accepted (T.stepsFrom (fuel + 1) c) = true ↔ T.action c = .accept ∨
      (T.action c).isFinal = false ∧ accepted (T.stepsFrom fuel (c.after (T.action c))) = true := by
  rw [stepsFrom]
  by_cases final : (T.action c).isFinal = true
  · simp [accepted, final]
  · have other : T.action c ≠ .accept := by
      intro accepts
      rw [accepts] at final
      exact final rfl
    simp only [accepted, final, true_and, other, false_or, decide_eq_true_eq, List.getLast?_cons]
    cases last : (T.stepsFrom fuel (c.after (T.action c))).getLast? with
    | none => simp [last, other]
    | some step => simp [last]

private theorem expansions_of_expand {fuel : Nat} {c : ParseConfig} {head : Symbol} {body : Word}
    (act : T.action c = .expand head body) : expansions (T.stepsFrom (fuel + 1) c) =
      ⟨[head], body⟩ :: expansions (T.stepsFrom fuel (c.after (.expand head body))) := by
  rw [stepsFrom, act]
  rfl

private theorem expansions_of_read {fuel : Nat} {c : ParseConfig} {a : Symbol}
    (act : T.action c = .read a) :
    expansions (T.stepsFrom (fuel + 1) c) =
      expansions (T.stepsFrom fuel (c.after (.read a))) := by
  rw [stepsFrom, act]
  rfl

/-- A configuration of a run: the end marker lies below the stack and behind the input. -/
def marked (stack word : Word) : ParseConfig :=
  ⟨stack ++ [Symbol.endOfInput], word ++ [Symbol.endOfInput]⟩

section Soundness

private theorem eq_nil_of_headD {word : Word} (clean : Symbol.endOfInput ∉ word)
    (ended : (word ++ [Symbol.endOfInput]).headD Symbol.endOfInput = Symbol.endOfInput) :
    word = [] := by
  cases word with
  | nil => rfl
  | cons symbol rest => exact absurd (ended ▸ List.mem_cons_self) clean

private theorem exists_rest {word rest : Word} {symbol : Symbol}
    (same : word ++ [Symbol.endOfInput] = symbol :: rest) (other : symbol ≠ Symbol.endOfInput) :
    ∃ later, word = symbol :: later ∧ rest = later ++ [Symbol.endOfInput] := by
  cases word with
  | nil => exact absurd (List.cons.inj same).1.symm other
  | cons first later =>
    obtain ⟨rfl, rfl⟩ := List.cons.inj same
    exact ⟨later, rfl, rfl⟩

private theorem Predicts.leftmost_of_accepted (predicts : T.Predicts G)
    (unmarked : Symbol.endOfInput ∉ G.nonTerminals ∧ Symbol.endOfInput ∉ G.terminals)
    {fuel : Nat} {stack word : Word}
    (declared : ∀ symbol ∈ stack, symbol ∈ G.nonTerminals ∨ symbol ∈ G.terminals)
    (clean : Symbol.endOfInput ∉ word)
    (accepts : accepted (T.stepsFrom fuel (marked stack word)) = true) :
    G.IsTerminalWord word ∧
      G.LeftmostDerivation (expansions (T.stepsFrom fuel (marked stack word))) stack word := by
  induction fuel generalizing stack word with
  | zero => cases accepts
  | succ fuel ih =>
    have unknown : Symbol.endOfInput ∉ T.nonTerminals := predicts.nonTerminals ▸ unmarked.1
    rw [accepted_stepsFrom_succ] at accepts
    rcases action_cases (marked stack word) with ⟨act, top, next⟩ | ⟨body, _, known, found, act⟩ |
      ⟨a, rest, input, same, terminal, other, act⟩ | act
    · have unlike : Symbol.endOfInput ∉ stack :=
        fun mem => (declared _ mem).elim unmarked.1 unmarked.2
      obtain rfl := eq_nil_of_headD unlike top
      obtain rfl := eq_nil_of_headD clean next
      refine ⟨fun symbol mem => absurd mem List.not_mem_nil, ?_⟩
      rw [stepsFrom, act]
      exact .done []
    · obtain ⟨head, rest, top, same⟩ := exists_stack_of_top unknown known
      rw [same] at known found act
      have other : head ≠ Symbol.endOfInput := fun h => unknown (h ▸ known)
      obtain ⟨later, rfl, rfl⟩ := exists_rest top other
      obtain ⟨mem, _⟩ := predicts.body_iff.mp found
      have after : (marked (head :: later) word).after (.expand head body) =
          marked (body ++ later) word := by
        simp [marked, ParseConfig.after]
      rw [act, after] at accepts
      have declared' : ∀ symbol ∈ body ++ later, symbol ∈ G.nonTerminals ∨ symbol ∈ G.terminals :=
        List.forall_mem_append.mpr ⟨fun _ => predicts.fits.body_declared mem,
          (List.forall_mem_cons.mp declared).2⟩
      obtain ⟨terminals, derivation⟩ :=
        ih declared' clean (accepts.resolve_left (by simp)).2
      have whole : G.LeftmostDerivation (⟨[head], body⟩ ::
          expansions (T.stepsFrom fuel (marked (body ++ later) word)))
            ([] ++ [head] ++ later) word :=
        .step (mem_table_iff.mp mem) (fun symbol mem => absurd mem List.not_mem_nil) derivation
      rw [expansions_of_expand act, after]
      exact ⟨terminals, whole⟩
    · obtain ⟨top, next⟩ := ParseConfig.mk.inj same
      obtain ⟨later, rfl, rfl⟩ := exists_rest top other
      obtain ⟨unread, rfl, rfl⟩ := exists_rest next other
      have after : (marked (a :: later) (a :: unread)).after (.read a) = marked later unread := rfl
      rw [act, after] at accepts
      rw [List.forall_mem_cons] at declared
      rw [List.mem_cons, not_or] at clean
      obtain ⟨terminals, derivation⟩ :=
        ih declared.2 clean.2 (accepts.resolve_left (by simp)).2
      have isTerminal : a ∈ G.terminals :=
        declared.1.resolve_left (predicts.nonTerminals ▸ terminal)
      rw [expansions_of_read act, after]
      exact ⟨List.forall_mem_cons.mpr ⟨isTerminal, terminals⟩, derivation.cons isTerminal⟩
    · rw [act] at accepts
      exact absurd accepts (by simp [ParseAction.isFinal])

end Soundness

section Completeness

/-- What may come after a non-terminal of the stack is in its FOLLOW set. -/
def Covered (G : Grammar) : Word → Prop
  | [] => True
  | symbol :: rest => (symbol ∈ G.nonTerminals → ∀ t, G.Begins t rest →
      t ∈ G.followSets.of symbol) ∧ Covered G rest

theorem Predicts.covered_expand (predicts : T.Predicts G) {head : Symbol} {body stack : Word}
    (mem : (head, body) ∈ G.table.productions) (covered : Covered G (head :: stack)) :
    Covered G (body ++ stack) := by
  suffices down : ∀ before rest, body = before ++ rest → Covered G (rest ++ stack) from
    down [] body rfl
  intro before rest whole
  induction rest generalizing before with
  | nil => exact covered.2
  | cons symbol rest ih =>
    refine ⟨fun inside t begins => ?_, ih (before ++ [symbol]) (by simp [whole])⟩
    apply predicts.fits.followSets_closed predicts.free (whole ▸ mem) inside
    rcases fronted_append.mp begins with here | ⟨vanish, later⟩
    · exact Or.inl here
    · exact Or.inr ⟨vanish, covered.1 (predicts.free.head_mem mem) t later⟩

private theorem Predicts.begins_lookahead (predicts : T.Predicts G)
    (unmarked : Symbol.endOfInput ∉ G.nonTerminals) {stack word : Word}
    (yields : G.Yields stack word) (terminals : ∀ symbol ∈ word, symbol ∉ G.nonTerminals) :
    G.Begins (marked stack word).lookahead (stack ++ [Symbol.endOfInput]) := by
  refine fronted_append.mpr ?_
  cases word with
  | nil =>
    have last : G.Leads Symbol.endOfInput Symbol.endOfInput :=
      (leads_iff_eq predicts.free unmarked).mpr rfl
    exact Or.inr ⟨yields.vanishes, Or.inl last⟩
  | cons t word => exact Or.inl (yields.begins (terminals t List.mem_cons_self))

theorem Predicts.body?_of_yields (predicts : T.Predicts G)
    (unmarked : Symbol.endOfInput ∉ G.nonTerminals) {head : Symbol} {body stack word : Word}
    (mem : (head, body) ∈ G.table.productions) (yields : G.Yields (body ++ stack) word)
    (terminals : ∀ symbol ∈ word, symbol ∉ G.nonTerminals)
    (covered : Covered G (head :: stack ++ [Symbol.endOfInput])) :
    T.body? head (marked (head :: stack) word).lookahead = some body := by
  have begins := predicts.begins_lookahead unmarked yields terminals
  rw [List.append_assoc] at begins
  refine predicts.body_iff.mpr ⟨mem, ?_⟩
  rcases fronted_append.mp begins with here | ⟨vanish, later⟩
  · exact Or.inl here
  · exact Or.inr ⟨vanish, covered.1 (predicts.free.head_mem mem) _ later⟩

private theorem Predicts.accepted_of_after (predicts : T.Predicts G)
    (unknown : Symbol.endOfInput ∉ T.nonTerminals) {c : ParseConfig} {act : ParseAction}
    (acts : T.action c = act) (goesOn : act.isFinal = false) {fuel : Nat}
    (enough : T.potential G c < fuel)
    (later : ∀ {fuel : Nat}, T.potential G (c.after act) < fuel →
      accepted (T.stepsFrom fuel (c.after act)) = true) :
    accepted (T.stepsFrom fuel c) = true := by
  subst acts
  have less := predicts.potential_after_lt goesOn (stack_ne_nil_of_goesOn unknown goesOn)
  obtain ⟨fuel, rfl⟩ : ∃ n, fuel = n + 1 := ⟨fuel - 1, by omega⟩
  exact accepted_stepsFrom_succ.mpr (Or.inr ⟨goesOn, later (by omega)⟩)

private theorem Predicts.accepted_of_yields (predicts : T.Predicts G)
    (unmarked : Symbol.endOfInput ∉ G.nonTerminals) {stack word : Word}
    (yields : G.Yields stack word)
    (terminals : ∀ symbol ∈ word, symbol ∉ G.nonTerminals) (clean : Symbol.endOfInput ∉ word)
    (covered : Covered G (stack ++ [Symbol.endOfInput])) {fuel : Nat}
    (enough : T.potential G (marked stack word) < fuel) :
    accepted (T.stepsFrom fuel (marked stack word)) = true := by
  have unknown : Symbol.endOfInput ∉ T.nonTerminals := predicts.nonTerminals ▸ unmarked
  induction yields generalizing fuel with
  | nil =>
    obtain ⟨fuel, rfl⟩ : ∃ n, fuel = n + 1 := ⟨fuel - 1, by omega⟩
    have act : T.action (marked [] []) = .accept := by
      rw [action, if_pos ⟨rfl, rfl⟩]
    exact accepted_stepsFrom_succ.mpr (Or.inl act)
  | @keep a stack word rest ih =>
    rw [List.forall_mem_cons] at terminals
    rw [List.mem_cons, not_or] at clean
    have act : T.action (marked (a :: stack) (a :: word)) = .read a :=
      action_of_terminal (predicts.nonTerminals ▸ terminals.1) fun h => clean.1 h.symm
    exact predicts.accepted_of_after unknown act rfl enough (ih terminals.2 clean.2 covered.2)
  | @expand head body stack word mem rest ih =>
    have known : head ∈ T.nonTerminals := predicts.nonTerminals ▸ predicts.free.head_mem mem
    have act : T.action (marked (head :: stack) word) = .expand head body :=
      action_of_body known unknown (predicts.body?_of_yields unmarked mem rest terminals covered)
    have after : (marked (head :: stack) word).after (.expand head body) =
        marked (body ++ stack) word := by
      simp [marked, ParseConfig.after]
    have covered' : Covered G (body ++ stack ++ [Symbol.endOfInput]) := by
      rw [List.append_assoc]
      exact predicts.covered_expand mem covered
    apply predicts.accepted_of_after unknown act rfl enough
    rw [after]
    exact ih terminals clean covered'

theorem Predicts.covered_start (predicts : T.Predicts G)
    (unmarked : Symbol.endOfInput ∉ G.nonTerminals) :
    Covered G [G.start, Symbol.endOfInput] := by
  refine ⟨fun _ t begins => ?_, fun known => absurd known unmarked, trivial⟩
  rcases begins with lead | ⟨vanish, _⟩
  · obtain rfl := (leads_iff_eq predicts.free unmarked).mp lead
    exact predicts.fits.endOfInput_mem_followSets
  · exact absurd (vanish.mem predicts.free) unmarked

end Completeness

end PredictiveTable

namespace Grammar

open PredictiveTable

/-- The recognizer of a grammar with a predictive table comes to an end on every word without end
markers, and the bounded run makes the same steps. It accepts exactly the words that the grammar
generates, and then its expansions are a leftmost derivation of the word. -/
theorem recognize_exact {G : Grammar} {T : PredictiveTable} (fits : G.WellFormed)
    (disjoint : G.Disjoint) (unmarked : Symbol.endOfInput ∉ G.nonTerminals)
    (built : G.predictiveTable = .ok T) {word : Word} (clean : Symbol.endOfInput ∉ word) :
    ∃ steps, G.recognizeToEnd word = .ok steps ∧ G.recognize word = .ok steps ∧
      (∃ last, steps.getLast? = some last ∧ last.action.isFinal = true) ∧
      (accepted steps = true ↔ G.Generates word) ∧
      (accepted steps = true → G.LeftmostDerivation (expansions steps) [G.start] word) := by
  obtain ⟨predicts, unlisted⟩ := predicts_of_predictiveTable fits built
  have unknown : Symbol.endOfInput ∉ T.nonTerminals := predicts.nonTerminals ▸ unmarked
  have start : T.initial word = marked [G.start] word := by
    rw [initial, predicts.start]
    rfl
  have sound (accepts : accepted (T.run word) = true) : G.IsTerminalWord word ∧
      G.LeftmostDerivation (expansions (T.run word)) [G.start] word := by
    rw [run, start] at accepts ⊢
    refine predicts.leftmost_of_accepted ⟨unmarked, unlisted⟩ ?_ clean accepts
    intro symbol mem
    exact Or.inl (List.mem_singleton.mp mem ▸ fits.start_mem)
  have complete (generates : G.Generates word) : accepted (T.run word) = true := by
    have enough := predicts.potential_initial_lt word
    rw [start] at enough
    rw [run, start]
    apply predicts.accepted_of_yields unmarked _ _ clean (predicts.covered_start unmarked) enough
    · exact (derives_iff_yields predicts.free).mp generates.2
    · exact fun symbol mem known => disjoint symbol known (generates.1 symbol mem)
  have bounded : G.recognize word = .ok (T.run word) := by
    rw [recognize, built]
    rfl
  have solid : ¬ G.Derives [Symbol.endOfInput] [] := by
    rw [derives_nil_iff predicts.free, List.forall_mem_singleton]
    exact fun vanish => unmarked (vanish.mem predicts.free)
  refine ⟨T.run word, (recognizeToEnd_eq_recognize fits solid word).trans bounded, bounded,
    predicts.ends_run unknown word, ⟨fun accepts => ?_, complete⟩, ?_⟩
  · exact ⟨(sound accepts).1, (sound accepts).2.derives⟩
  · exact fun accepts => (sound accepts).2

theorem recognize_exact_brackets :
    let built := ofProductions (OrderedSet.ofList ["S"]) (OrderedSet.ofList ["(", ")"]) "S"
      [⟨["S"], ["(", "S", ")", "S"]⟩, ⟨["S"], ["ε"]⟩]
    ∃ G T, built = .ok G ∧ G.WellFormed ∧ G.Disjoint ∧ Symbol.endOfInput ∉ G.nonTerminals ∧
      G.predictiveTable = .ok T ∧ Symbol.endOfInput ∉ ["(", "(", ")", ")"] ∧
      G.Generates ["(", "(", ")", ")"] := by
  intro built
  have accepted : built = .ok _ := rfl
  have fits := wellFormed_of_ofProductions accepted
  refine ⟨_, _, accepted, fits, by decide, by decide, rfl, by decide, ?_⟩
  obtain ⟨steps, _, made, _, generated, _⟩ := recognize_exact fits (by decide) (by decide) rfl
    (show Symbol.endOfInput ∉ ["(", "(", ")", ")"] by decide)
  obtain rfl := Except.ok.inj made
  exact generated.mp (by decide)

end Grammar

end LanguageTheory

import LanguageTheory.Proofs.Grammar.Lookahead
import LanguageTheory.Proofs.Grammar.Progress

/-!
Where the recognizer comes to an end. If finitely many steps lead to a final one, they are what the
loop gives (`Completes.finish_eq`). While there is a stack, every step lowers the potential; when
the stack is used up, a body of the end marker may take its place, which can happen once for each
symbol of the input, unless the body vanishes as well. Then the recognizer is idle and makes such
steps for ever (`Predicts.not_completes_of_draining`); apart from this it comes to an end
(`Predicts.exists_completes`).
-/

set_option autoImplicit false
set_option relaxedAutoImplicit false

namespace LanguageTheory

namespace Grammar

/-- The stack is used up and the input is not, and the end marker, which then counts as the top of
the stack, vanishes before what comes next. -/
structure Idle (G : Grammar) (c : ParseConfig) : Prop where
  empty : c.stack = []
  unread : c.lookahead ≠ Symbol.endOfInput
  erasable : G.Derives [Symbol.endOfInput] []
  follows : c.lookahead ∈ G.followSets.of Symbol.endOfInput

/-- The end marker and all symbols of the stack vanish before what comes next. -/
def Draining (G : Grammar) (c : ParseConfig) : Prop :=
  c.lookahead ≠ Symbol.endOfInput ∧ ∀ symbol ∈ Symbol.endOfInput :: c.stack,
    G.Vanishes symbol ∧ c.lookahead ∈ G.followSets.of symbol

private theorem Idle.vanishes {G : Grammar} {c : ParseConfig} (idle : G.Idle c)
    (free : G.ContextFree) :
    G.Vanishes Symbol.endOfInput :=
  List.forall_mem_singleton.mp ((derives_nil_iff free).mp idle.erasable)

private theorem Idle.draining {G : Grammar} {c : ParseConfig} (idle : G.Idle c)
    (free : G.ContextFree) :
    G.Draining c := by
  refine ⟨idle.unread, ?_⟩
  rw [idle.empty, List.forall_mem_singleton]
  exact ⟨idle.vanishes free, idle.follows⟩

end Grammar

namespace PredictiveTable

open Grammar

variable {T : PredictiveTable} {G : Grammar} {c d : ParseConfig} {steps : List ParseStep}

section Loop

/-- The steps from a configuration on, of which the last one and no other is final. -/
inductive Completes (T : PredictiveTable) : ParseConfig → List ParseStep → Prop
  | final {c : ParseConfig} (ends : (T.action c).isFinal = true) : Completes T c [⟨c, T.action c⟩]
  | step {c : ParseConfig} {later : List ParseStep} (goesOn : (T.action c).isFinal = false)
      (rest : Completes T (c.after (T.action c)) later) : Completes T c (⟨c, T.action c⟩ :: later)

def Next (T : PredictiveTable) (c d : ParseConfig) : Prop :=
  (T.action c).isFinal = false ∧ d = c.after (T.action c)

def Reaches (T : PredictiveTable) (c d : ParseConfig) : Prop := Relation.ReflTransGen T.Next c d

private theorem finish_of_inr {run : ParseRun} (last : T.advance run = .inr steps) :
    T.finish run = steps := by
  rw [finish, repeatM_eq_of_monadTail]
  simp only [repeatM.body, last, pure_bind]
  rfl

private theorem finish_of_inl {run next : ParseRun} (more : T.advance run = .inl next) :
    T.finish run = T.finish next := by
  rw [finish, repeatM_eq_of_monadTail]
  simp only [repeatM.body, more, pure_bind]
  rfl

private theorem advance_of_isFinal (made : List ParseStep) (ends : (T.action c).isFinal = true) :
    T.advance ⟨made, c⟩ = .inr (made.reverse ++ [⟨c, T.action c⟩]) := by
  rw [advance, if_pos ends, List.reverse_cons]

private theorem advance_of_goesOn (made : List ParseStep) (goesOn : (T.action c).isFinal = false) :
    T.advance ⟨made, c⟩ = .inl ⟨⟨c, T.action c⟩ :: made, c.after (T.action c)⟩ := by
  rw [advance, if_neg (Bool.eq_false_iff.mp goesOn)]

theorem Completes.finish_eq (run : T.Completes c steps) (made : List ParseStep) :
    T.finish ⟨made, c⟩ = made.reverse ++ steps := by
  induction run generalizing made with
  | final ends => exact finish_of_inr (advance_of_isFinal made ends)
  | step goesOn _ ih => rw [finish_of_inl (advance_of_goesOn made goesOn), ih, List.reverse_cons,
      List.append_assoc, List.singleton_append]

theorem Completes.runToEnd_eq {word : Word} (run : T.Completes (T.initial word) steps) :
    T.runToEnd word = steps := run.finish_eq []

private theorem Completes.stepsFrom_eq (run : T.Completes c steps) {fuel : Nat}
    (enough : steps.length ≤ fuel) :
    T.stepsFrom fuel c = steps := by
  induction run generalizing fuel with
  | final ends =>
    obtain ⟨fuel, rfl⟩ : ∃ n, fuel = n + 1 := ⟨fuel - 1, by simp at enough; omega⟩
    simp [stepsFrom, ends]
  | step goesOn rest ih =>
    rw [List.length_cons] at enough
    obtain ⟨fuel, rfl⟩ : ∃ n, fuel = n + 1 := ⟨fuel - 1, by omega⟩
    simp [stepsFrom, goesOn, ih (show _ ≤ fuel by omega)]

private theorem Completes.unique {others : List ParseStep} (run : T.Completes c steps)
    (run' : T.Completes c others) : steps = others :=
  (run.finish_eq []).symm.trans (run'.finish_eq [])

private theorem Completes.ends (run : T.Completes c steps) :
    ∃ last, steps.getLast? = some last ∧ last.action.isFinal = true := by
  induction run with
  | final ends => exact ⟨_, rfl, ends⟩
  | step _ _ ih =>
    obtain ⟨last, found, ends⟩ := ih
    exact ⟨last, by rw [List.getLast?_cons, found, Option.getD_some], ends⟩

private theorem Completes.of_next (run : T.Completes c steps) (next : T.Next c d) :
    ∃ later, T.Completes d later := by
  obtain ⟨goesOn, rfl⟩ := next
  cases run with
  | final ends =>
    rw [ends] at goesOn
    cases goesOn
  | step _ rest => exact ⟨_, rest⟩

private theorem Completes.of_reaches (run : T.Completes c steps) (way : T.Reaches c d) :
    ∃ later, T.Completes d later := by
  induction way with
  | refl => exact ⟨steps, run⟩
  | tail _ next ih =>
    obtain ⟨_, run'⟩ := ih
    exact run'.of_next next

private theorem not_completes_of_next_self (next : T.Next c c) : ¬ T.Completes c steps := by
  intro run
  induction run with
  | final ends =>
    rw [next.1] at ends
    cases ends
  | step _ _ ih => exact ih (next.2 ▸ next)

end Loop

section Divergence

private theorem top_mem (c : ParseConfig) : c.top ∈ Symbol.endOfInput :: c.stack := by
  obtain ⟨_ | ⟨head, stack⟩, input⟩ := c
  · exact List.mem_cons_self
  · exact List.mem_cons_of_mem _ List.mem_cons_self

private theorem Predicts.next_of_draining (predicts : T.Predicts G) (draining : G.Draining c) :
    ∃ d, T.Next c d ∧ G.Draining d := by
  obtain ⟨unread, every⟩ := draining
  obtain ⟨vanish, follows⟩ := every c.top (top_mem c)
  obtain ⟨body, mem, all⟩ := vanishes_iff.mp vanish
  have act : T.action c = .expand c.top body := by
    have known : c.top ∈ T.nonTerminals := predicts.nonTerminals ▸ vanish.mem predicts.free
    have found : T.body? c.top c.lookahead = some body :=
      predicts.body_iff.mpr ⟨mem, Or.inr ⟨all, follows⟩⟩
    rw [action, if_neg fun ended => unread ended.2, if_pos known, found]
  refine ⟨c.after (.expand c.top body), ⟨by rw [act]; rfl, by rw [act]⟩, unread, ?_⟩
  refine List.forall_mem_cons.mpr ⟨every _ List.mem_cons_self, List.forall_mem_append.mpr ⟨?_, ?_⟩⟩
  · exact fun symbol member =>
      ⟨all symbol member, predicts.follows_body mem all follows symbol member⟩
  · exact fun symbol member => every symbol (List.mem_cons_of_mem _ (List.mem_of_mem_tail member))

theorem Predicts.not_completes_of_draining (predicts : T.Predicts G) (draining : G.Draining c) :
    ¬ T.Completes c steps := by
  intro run
  induction run with
  | final ends =>
    obtain ⟨_, next, _⟩ := predicts.next_of_draining draining
    rw [next.1] at ends
    cases ends
  | step _ _ ih =>
    obtain ⟨_, ⟨_, rfl⟩, draining'⟩ := predicts.next_of_draining draining
    exact ih draining'

end Divergence

section Budget

/-- More than what any body can cost until the symbol is read to which it leads. -/
def refill (T : PredictiveTable) (G : Grammar) : Nat := (G.nonTerminals.size + 2) * T.stride G + 1

open Classical in
/-- What may be spent on a body of the end marker if the stack is used up before the lookahead is
read. -/
noncomputable def credit (T : PredictiveTable) (G : Grammar) (c : ParseConfig) : Nat :=
  if G.Begins c.lookahead c.stack then 0 else T.refill G

/-- The number that gets smaller with every step, also when the stack is used up; each symbol of the
input brings a new credit. -/
noncomputable def budget (T : PredictiveTable) (G : Grammar) (c : ParseConfig) : Nat :=
  T.potential G c + T.credit G c + c.input.length * T.refill G

private theorem budget_mk {stack input : Word} : T.budget G ⟨stack, input⟩ =
    T.potential G ⟨stack, input⟩ + T.credit G ⟨stack, input⟩ + input.length * T.refill G := rfl

private theorem credit_of_begins (begins : G.Begins c.lookahead c.stack) : T.credit G c = 0 :=
  if_pos begins

private theorem credit_of_not_begins (unfit : ¬ G.Begins c.lookahead c.stack) :
    T.credit G c = T.refill G :=
  if_neg unfit

private theorem credit_le (T : PredictiveTable) (G : Grammar) (c : ParseConfig) :
    T.credit G c ≤ T.refill G := by
  by_cases begins : G.Begins c.lookahead c.stack
  · rw [credit_of_begins begins]
    exact Nat.zero_le _
  · rw [credit_of_not_begins begins]

private theorem Predicts.begins_expand (predicts : T.Predicts G) {head t : Symbol}
    {body stack : Word} (found : T.body? head t = some body) (begins : G.Begins t (head :: stack)) :
    G.Begins t (body ++ stack) := by
  obtain ⟨mem, here | ⟨all, follows⟩⟩ := predicts.body_iff.mp found
  · exact fronted_append.mpr (Or.inl here)
  · have vanish : G.Vanishes head := vanishes_iff.mpr ⟨body, mem, all⟩
    rcases begins with lead | ⟨_, later⟩
    · exact absurd lead (predicts.not_leads_of_follows vanish follows)
    · exact fronted_append.mpr (Or.inr ⟨all, later⟩)

private theorem Predicts.credit_expand_le (predicts : T.Predicts G) {head : Symbol}
    {body stack input : Word}
    (found : T.body? head (ParseConfig.mk (head :: stack) input).lookahead = some body) :
    T.credit G ⟨body ++ stack, input⟩ ≤ T.credit G ⟨head :: stack, input⟩ := by
  by_cases begins : G.Begins (ParseConfig.mk (head :: stack) input).lookahead (head :: stack)
  · rw [credit_of_begins (c := ⟨body ++ stack, input⟩) (predicts.begins_expand found begins)]
    exact Nat.zero_le _
  · rw [credit_of_not_begins (c := ⟨head :: stack, input⟩) begins]
    exact T.credit_le G _

private theorem Predicts.budget_of_begins_lt (predicts : T.Predicts G) {head : Symbol}
    {body input : Word} (found : T.body? head (ParseConfig.mk [] input).lookahead = some body)
    (begins : G.Begins (ParseConfig.mk [] input).lookahead body) :
    T.budget G ⟨body, input⟩ < T.budget G ⟨[], input⟩ := by
  have light := stackWeight_body_lt predicts.free found
  have near := Nat.mul_le_mul_right (T.stride G)
    (ahead_le predicts.free (ParseConfig.mk [] input).lookahead body)
  have spent : T.credit G ⟨body, input⟩ = 0 := credit_of_begins begins
  have full : T.credit G ⟨[], input⟩ = T.refill G := credit_of_not_begins id
  have worth : T.refill G = (G.nonTerminals.size + 1) * T.stride G + T.stride G + 1 := by
    rw [refill, Nat.succ_mul]
  have paid : T.potential G ⟨body, input⟩ < T.potential G ⟨[], input⟩ + T.refill G := by
    show T.stackWeight G body + ahead G (ParseConfig.mk [] input).lookahead body * T.stride G +
      input.length * T.turn G < 0 + 0 * T.stride G + input.length * T.turn G + T.refill G
    omega
  rw [budget_mk, budget_mk, spent, full]
  omega

private theorem Predicts.budget_after_lt (predicts : T.Predicts G) {c : ParseConfig}
    (goesOn : (T.action c).isFinal = false) (busy : ¬ G.Idle c) :
    T.budget G (c.after (T.action c)) < T.budget G c := by
  rcases action_cases c with ⟨act, _⟩ | ⟨body, other, _, found, act⟩ |
    ⟨a, stack, input, rfl, _, _, act⟩ | act
  · rw [act] at goesOn
    cases goesOn
  · obtain ⟨_ | ⟨head, stack⟩, input⟩ := c
    · have begins : G.Begins (ParseConfig.mk [] input).lookahead body := by
        obtain ⟨mem, begins | ⟨all, follows⟩⟩ := predicts.body_iff.mp found
        · exact begins
        · have vanish : G.Vanishes Symbol.endOfInput := vanishes_iff.mpr ⟨body, mem, all⟩
          exact absurd ⟨rfl, fun ended => other ⟨rfl, ended⟩, vanish.derives, follows⟩ busy
      rw [act]
      show T.budget G ⟨body ++ [], input⟩ < T.budget G ⟨[], input⟩
      rw [List.append_nil]
      exact predicts.budget_of_begins_lt found begins
    · have lower := predicts.potential_after_lt goesOn (List.cons_ne_nil head stack)
      rw [act] at lower ⊢
      have less : T.potential G ⟨body ++ stack, input⟩ < T.potential G ⟨head :: stack, input⟩ :=
        lower
      have fit : T.credit G ⟨body ++ stack, input⟩ ≤ T.credit G ⟨head :: stack, input⟩ :=
        predicts.credit_expand_le found
      show T.budget G ⟨body ++ stack, input⟩ < T.budget G ⟨head :: stack, input⟩
      rw [budget_mk, budget_mk]
      omega
  · have lower := predicts.potential_after_lt goesOn (List.cons_ne_nil a stack)
    rw [act] at lower ⊢
    have less : T.potential G ⟨stack, input⟩ < T.potential G ⟨a :: stack, a :: input⟩ := lower
    have fit := T.credit_le G ⟨stack, input⟩
    show T.budget G ⟨stack, input⟩ < T.budget G ⟨a :: stack, a :: input⟩
    rw [budget_mk, budget_mk, List.length_cons, Nat.succ_mul]
    omega
  · rw [act] at goesOn
    cases goesOn

theorem Predicts.exists_completes (predicts : T.Predicts G) (c : ParseConfig)
    (busy : ∀ d, T.Reaches c d → ¬ G.Idle d) :
    ∃ steps, T.Completes c steps ∧ steps.length ≤ T.budget G c + 1 := by
  obtain ⟨budget, same⟩ : ∃ n, T.budget G c = n := ⟨_, rfl⟩
  induction budget using Nat.strong_induction_on generalizing c with
  | h budget ih =>
    subst same
    by_cases final : (T.action c).isFinal = true
    · exact ⟨_, .final final, Nat.le_add_left 1 _⟩
    · have goesOn := Bool.eq_false_iff.mpr final
      have less := predicts.budget_after_lt goesOn (busy c .refl)
      obtain ⟨later, rest, short⟩ := ih _ less _ (fun d way => busy d (.head ⟨goesOn, rfl⟩ way)) rfl
      refine ⟨_, .step goesOn rest, ?_⟩
      rw [List.length_cons]
      omega

private theorem Predicts.budget_initial_lt (predicts : T.Predicts G) (word : Word) :
    T.budget G (T.initial word) < T.stepBound word.length := by
  have first := predicts.potential_initial_lt_shares word
  have refill_le : T.refill G ≤ T.share G := strides_lt_share T G
  have credit := T.credit_le G (T.initial word)
  have refills := Nat.mul_le_mul_left (word.length + 1) refill_le
  have total : T.budget G (T.initial word) < (2 * word.length + 5) * T.share G := by
    have parts : (2 * word.length + 5) * T.share G =
        (word.length + 3) * T.share G + (word.length + 1) * T.share G + T.share G := by ring
    rw [budget, length_input_initial]
    omega
  have square : 2 * word.length + 5 ≤ (word.length + 3) ^ 2 := by
    rw [show (word.length + 3) ^ 2 = word.length * word.length + 6 * word.length + 9 by ring]
    omega
  calc T.budget G (T.initial word) < (2 * word.length + 5) * T.share G := total
    _ ≤ (word.length + 3) ^ 2 * T.share G := Nat.mul_le_mul_right _ square
    _ ≤ T.stepBound word.length := predicts.shares_le_stepBound word.length

private theorem Predicts.completes_run (predicts : T.Predicts G) {word : Word}
    (busy : ∀ c, T.Reaches (T.initial word) c → ¬ G.Idle c) :
    T.Completes (T.initial word) (T.run word) := by
  obtain ⟨steps, run, short⟩ := predicts.exists_completes (T.initial word) busy
  have bound : steps.length ≤ T.stepBound word.length :=
    short.trans (predicts.budget_initial_lt word)
  rwa [PredictiveTable.run, run.stepsFrom_eq bound]

theorem Predicts.ends_run (predicts : T.Predicts G) (unmarked : Symbol.endOfInput ∉ T.nonTerminals)
    (word : Word) : ∃ last, (T.run word).getLast? = some last ∧ last.action.isFinal = true := by
  refine (predicts.completes_run fun c _ idle => unmarked ?_).ends
  exact predicts.nonTerminals ▸ (idle.vanishes predicts.free).mem predicts.free

private theorem length_stepsFrom_le (T : PredictiveTable) (fuel : Nat) (c : ParseConfig) :
    (T.stepsFrom fuel c).length ≤ fuel := by
  induction fuel generalizing c with
  | zero => exact le_rfl
  | succ fuel ih =>
    rw [stepsFrom, List.length_cons]
    split
    · exact Nat.succ_le_succ (Nat.zero_le fuel)
    · exact Nat.succ_le_succ (ih _)

end Budget

end PredictiveTable

namespace Grammar

open PredictiveTable

variable {G : Grammar} {T : PredictiveTable}

/-- Where the end marker cannot be erased, the run until the end is the bounded one. -/
theorem recognizeToEnd_eq_recognize (fits : G.WellFormed)
    (solid : ¬ G.Derives [Symbol.endOfInput] []) (word : Word) :
    G.recognizeToEnd word = G.recognize word := by
  rw [recognizeToEnd, recognize]
  cases built : G.predictiveTable with
  | error e => rfl
  | ok T =>
    obtain ⟨predicts, _⟩ := predicts_of_predictiveTable fits built
    have run : T.Completes (T.initial word) (T.run word) :=
      predicts.completes_run fun _ _ idle => solid idle.erasable
    exact congrArg Except.ok run.runToEnd_eq

/-- The recognizer of a grammar with a predictive table comes to an end on a word exactly if it
never gets idle on it. It does so on every word if the end marker cannot be erased, as it cannot if
it is no non-terminal. When it comes to an end, the last step and no other accepts or rejects, the
number of steps is bounded by the length of the word, and the loop gives these steps. -/
theorem recognizeToEnd_exact (fits : G.WellFormed) (built : G.predictiveTable = .ok T)
    (word : Word) :
    ((∃ steps, T.Completes (T.initial word) steps) ↔
      ∀ c, T.Reaches (T.initial word) c → ¬ G.Idle c) ∧
    (¬ G.Derives [Symbol.endOfInput] [] → ∃ steps, T.Completes (T.initial word) steps) ∧
    ∀ steps, T.Completes (T.initial word) steps → steps.length ≤ T.stepBound word.length ∧
      G.recognizeToEnd word = .ok steps ∧ G.recognize word = .ok steps := by
  obtain ⟨predicts, _⟩ := predicts_of_predictiveTable fits built
  have busy {steps : List ParseStep} (run : T.Completes (T.initial word) steps) (c : ParseConfig)
      (way : T.Reaches (T.initial word) c) : ¬ G.Idle c := by
    intro idle
    obtain ⟨later, run'⟩ := run.of_reaches way
    exact predicts.not_completes_of_draining (idle.draining predicts.free) run'
  refine ⟨⟨?_, fun busy => ⟨_, predicts.completes_run busy⟩⟩,
    fun solid => ⟨_, predicts.completes_run fun c _ idle => solid idle.erasable⟩,
    fun steps run => ?_⟩
  · rintro ⟨steps, run⟩
    exact busy run
  · obtain rfl : T.run word = steps := (predicts.completes_run (busy run)).unique run
    refine ⟨length_stepsFrom_le T _ _, ?_, ?_⟩
    · rw [recognizeToEnd, built]
      exact congrArg Except.ok run.runToEnd_eq
    · rw [recognize, built]
      rfl

/-- The end marker is a non-terminal that derives `b`. The recognizer expands it once more when the
stack is used up. -/
theorem recognizeToEnd_exact_end_marker :
    ∃ G T steps, ofProductions (OrderedSet.ofList ["S", "$"]) (OrderedSet.ofList ["a", "b"]) "S"
        [⟨["S"], ["$", "a"]⟩, ⟨["$"], ["b"]⟩] = .ok G ∧ G.predictiveTable = .ok T ∧
      ¬ G.Derives [Symbol.endOfInput] [] ∧ T.Completes (T.initial ["b", "a", "b"]) steps ∧
      G.recognizeToEnd ["b", "a", "b"] = .ok steps ∧ steps.length = 7 ∧ accepted steps = true := by
  obtain ⟨G, T, steps, made, built, solid, result, count, accepts⟩ :
      ∃ G T steps, ofProductions (OrderedSet.ofList ["S", "$"]) (OrderedSet.ofList ["a", "b"]) "S"
          [⟨["S"], ["$", "a"]⟩, ⟨["$"], ["b"]⟩] = .ok G ∧ G.predictiveTable = .ok T ∧
        Symbol.epsilon ∉ G.firstSets.of Symbol.endOfInput ∧
          G.recognize ["b", "a", "b"] = .ok steps ∧
        steps.length = 7 ∧ accepted steps = true :=
    ⟨_, _, _, rfl, rfl, by decide, rfl, by decide +kernel, by decide +kernel⟩
  have fits := wellFormed_of_ofProductions made
  have free := contextFree_of_predictiveTable built
  have kept : ¬ G.Derives [Symbol.endOfInput] [] := by
    rw [derives_nil_iff free, List.forall_mem_singleton, ← fits.epsilon_mem_firstSets free]
    exact solid
  obtain ⟨_, ends, exact⟩ := recognizeToEnd_exact fits built ["b", "a", "b"]
  obtain ⟨others, run⟩ := ends kept
  obtain ⟨_, result', bounded⟩ := exact others run
  obtain rfl : steps = others := Except.ok.inj (result.symm.trans bounded)
  exact ⟨G, T, steps, made, built, kept, run, result', count, accepts⟩

/-- The end marker is a non-terminal that can be erased. When the stack is used up and `a` comes
next, it is erased for ever. -/
theorem not_forall_completes :
    ¬ ∀ (nonTerminals terminals : Alphabet) (start : Symbol) (productions : List Production)
      (G : Grammar) (T : PredictiveTable) (word : Word),
      ofProductions nonTerminals terminals start productions = .ok G →
        G.predictiveTable = .ok T → ∃ steps, T.Completes (T.initial word) steps := by
  intro ends
  obtain ⟨G, T, made, built, way, loop⟩ :
      ∃ G T, ofProductions (OrderedSet.ofList ["S", "$"]) (OrderedSet.ofList ["a"]) "S"
          [⟨["S"], ["$", "a"]⟩, ⟨["$"], []⟩] = .ok G ∧ G.predictiveTable = .ok T ∧
        T.Reaches (T.initial ["a", "a"]) ⟨[], ["a", "$"]⟩ ∧
        T.Next ⟨[], ["a", "$"]⟩ ⟨[], ["a", "$"]⟩ := by
    refine ⟨_, _, rfl, rfl, ?_, ⟨by decide, rfl⟩⟩
    exact .head ⟨by decide, rfl⟩ (.head ⟨by decide, rfl⟩ (.head ⟨by decide, rfl⟩
      (.single ⟨by decide, rfl⟩)))
  obtain ⟨steps, run⟩ := ends _ _ _ _ G T ["a", "a"] made built
  obtain ⟨later, run'⟩ := run.of_reaches way
  exact not_completes_of_next_self loop run'

end Grammar

end LanguageTheory

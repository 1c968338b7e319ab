import Mathlib.Algebra.Order.BigOperators.Group.List
import Mathlib.Algebra.Order.Ring.Nat
import Mathlib.Tactic.Ring
import LanguageTheory.Grammar.Recognizer
import LanguageTheory.Proofs.Grammar.Height
import LanguageTheory.Proofs.Grammar.PredictiveTable

/-!
The recognizer makes progress. Under one lookahead a symbol is replaced either by symbols that
vanish lower down, or by a body in which the symbol that leads to the lookahead does so from lower
down; so a number attached to the configuration, its potential, gets smaller with every step on a
stack (`Predicts.potential_after_lt`), and at first it is below the number of steps that the run may
take (`Predicts.potential_initial_lt`).
-/

set_option autoImplicit false
set_option relaxedAutoImplicit false

namespace LanguageTheory.PredictiveTable

variable {T : PredictiveTable} {G : Grammar}

section Action

theorem action_of_body {head : Symbol} {stack input body : Word} (known : head ∈ T.nonTerminals)
    (unmarked : Symbol.endOfInput ∉ T.nonTerminals)
    (found : T.body? head (ParseConfig.mk (head :: stack) input).lookahead = some body) :
    T.action ⟨head :: stack, input⟩ = .expand head body := by
  have top : (ParseConfig.mk (head :: stack) input).top = head := rfl
  have other : ¬ (head = Symbol.endOfInput ∧
      (ParseConfig.mk (head :: stack) input).lookahead = Symbol.endOfInput) := by
    rintro ⟨rfl, _⟩
    exact unmarked known
  rw [action, top, if_neg other, if_pos known, found]

theorem action_of_terminal {a : Symbol} {stack input : Word} (terminal : a ∉ T.nonTerminals)
    (other : a ≠ Symbol.endOfInput) : T.action ⟨a :: stack, a :: input⟩ = .read a := by
  have top : (ParseConfig.mk (a :: stack) (a :: input)).top = a := rfl
  have next : (ParseConfig.mk (a :: stack) (a :: input)).lookahead = a := rfl
  rw [action, top, next, if_neg fun h => other h.1, if_neg terminal, if_pos rfl]

theorem action_cases (c : ParseConfig) :
    (T.action c = .accept ∧ c.top = Symbol.endOfInput ∧ c.lookahead = Symbol.endOfInput) ∨
    (∃ body, ¬ (c.top = Symbol.endOfInput ∧ c.lookahead = Symbol.endOfInput) ∧
      c.top ∈ T.nonTerminals ∧ T.body? c.top c.lookahead = some body ∧
      T.action c = .expand c.top body) ∨
    (∃ a stack input, c = ⟨a :: stack, a :: input⟩ ∧ a ∉ T.nonTerminals ∧
      a ≠ Symbol.endOfInput ∧ T.action c = .read a) ∨
    T.action c = .reject := by
  unfold action
  by_cases ended : c.top = Symbol.endOfInput ∧ c.lookahead = Symbol.endOfInput
  · exact Or.inl ⟨if_pos ended, ended⟩
  · rw [if_neg ended]
    refine Or.inr ?_
    by_cases known : c.top ∈ T.nonTerminals
    · rw [if_pos known]
      cases found : T.body? c.top c.lookahead with
      | none => exact Or.inr (Or.inr rfl)
      | some body => exact Or.inl ⟨body, ended, known, rfl, rfl⟩
    · rw [if_neg known]
      refine Or.inr ?_
      by_cases same : c.top = c.lookahead
      · rw [if_pos same]
        refine Or.inl ?_
        have other : c.top ≠ Symbol.endOfInput := fun h => ended ⟨h, same ▸ h⟩
        obtain ⟨stack, input⟩ := c
        cases stack with
        | nil => exact absurd rfl other
        | cons a stack =>
          cases input with
          | nil => exact absurd same other
          | cons b input =>
            obtain rfl : a = b := same
            exact ⟨a, stack, input, rfl, known, other, rfl⟩
      · rw [if_neg same]
        exact Or.inr rfl

theorem exists_stack_of_top (unmarked : Symbol.endOfInput ∉ T.nonTerminals) {c : ParseConfig}
    (known : c.top ∈ T.nonTerminals) : ∃ head stack, c.stack = head :: stack ∧ c.top = head := by
  obtain ⟨_ | ⟨head, stack⟩, input⟩ := c
  · exact absurd known unmarked
  · exact ⟨head, stack, rfl, rfl⟩

theorem stack_ne_nil_of_goesOn (unmarked : Symbol.endOfInput ∉ T.nonTerminals) {c : ParseConfig}
    (goesOn : (T.action c).isFinal = false) : c.stack ≠ [] := by
  rcases action_cases c with ⟨act, _⟩ | ⟨body, _, known, _, _⟩ | ⟨a, stack, input, rfl, _⟩ | act
  · rw [act] at goesOn
    cases goesOn
  · obtain ⟨head, stack, whole, _⟩ := exists_stack_of_top unmarked known
    rw [whole]
    exact List.cons_ne_nil head stack
  · exact List.cons_ne_nil a stack
  · rw [act] at goesOn
    cases goesOn

private theorem le_foldl_max (l : List Word) (start : Nat) :
    start ≤ l.foldl (fun longest body => max longest body.length) start ∧
      ∀ body ∈ l, body.length ≤ l.foldl (fun longest body => max longest body.length) start := by
  induction l generalizing start with
  | nil => exact ⟨le_rfl, fun body mem => absurd mem List.not_mem_nil⟩
  | cons body l ih =>
    obtain ⟨above, all⟩ := ih (max start body.length)
    rw [List.foldl_cons]
    refine ⟨(le_max_left _ _).trans above, fun other mem => ?_⟩
    rcases List.mem_cons.mp mem with rfl | mem
    · exact (le_max_right _ _).trans above
    · exact all other mem

private theorem length_le_longestBody {head t : Symbol} {body : Word}
    (found : T.body? head t = some body) :
    body.length ≤ T.longestBody := by
  apply (le_foldl_max T.cells.values 0).2
  exact List.mem_map.mpr ⟨_, OrderedTable.get?_eq_some_iff.mp found, rfl⟩

end Action

section Potential

/-- What it can cost to let a symbol vanish. -/
noncomputable def weight (T : PredictiveTable) (G : Grammar) (symbol : Symbol) : Nat :=
  (T.longestBody + 2) ^ G.vanishHeight symbol

def heaviest (T : PredictiveTable) (G : Grammar) : Nat :=
  (T.longestBody + 2) ^ G.nonTerminals.size

noncomputable def stackWeight (T : PredictiveTable) (G : Grammar) (stack : Word) : Nat :=
  (stack.map (T.weight G)).sum

open Classical in
/-- How far down the lookahead is from the first symbol of the stack that leads to it, when all
symbols before vanish. -/
noncomputable def ahead (G : Grammar) (t : Symbol) : Word → Nat
  | [] => 0
  | symbol :: rest =>
    if G.Leads t symbol then G.leadHeight t symbol
    else if G.Vanishes symbol then ahead G t rest else 0

/-- What a step down towards the lookahead is worth: more than the body that it puts on the
stack. -/
def stride (T : PredictiveTable) (G : Grammar) : Nat := T.longestBody * T.heaviest G + 1

/-- What a symbol of the input is worth: more than all steps down to it. -/
def turn (T : PredictiveTable) (G : Grammar) : Nat := (G.nonTerminals.size + 1) * T.stride G + 1

noncomputable def potential (T : PredictiveTable) (G : Grammar) (c : ParseConfig) : Nat :=
  T.stackWeight G c.stack + ahead G c.lookahead c.stack * T.stride G + c.input.length * T.turn G

private theorem stackWeight_append {u v : Word} :
    T.stackWeight G (u ++ v) = T.stackWeight G u + T.stackWeight G v := by
  rw [stackWeight, List.map_append, List.sum_append, stackWeight, stackWeight]

private theorem stackWeight_cons {symbol : Symbol} {rest : Word} :
    T.stackWeight G (symbol :: rest) = T.weight G symbol + T.stackWeight G rest := by
  rw [stackWeight, List.map_cons, List.sum_cons, stackWeight]

private theorem stackWeight_le {word : Word} {bound : Nat}
    (each : ∀ symbol ∈ word, T.weight G symbol ≤ bound) :
    T.stackWeight G word ≤ word.length * bound := by
  induction word with
  | nil => exact Nat.zero_le _
  | cons symbol rest ih =>
    rw [List.forall_mem_cons] at each
    have later := ih each.2
    have now := each.1
    rw [stackWeight_cons, List.length_cons, Nat.succ_mul]
    omega

private theorem weight_le (free : G.ContextFree) (symbol : Symbol) :
    T.weight G symbol ≤ T.heaviest G :=
  Nat.pow_le_pow_right (by omega) (G.vanishHeight_le free symbol)

theorem ahead_le (free : G.ContextFree) (t : Symbol) (stack : Word) :
    ahead G t stack ≤ G.nonTerminals.size + 1 := by
  induction stack with
  | nil => exact Nat.zero_le _
  | cons symbol rest ih =>
    unfold ahead
    split
    · exact G.leadHeight_le free t symbol
    · split
      · exact ih
      · exact Nat.zero_le _

private theorem ahead_append {t : Symbol} {body stack : Word}
    (vanish : ∀ symbol ∈ body, G.Vanishes symbol) (none : ∀ symbol ∈ body, ¬ G.Leads t symbol) :
    ahead G t (body ++ stack) = ahead G t stack := by
  induction body with
  | nil => rfl
  | cons symbol rest ih =>
    rw [List.forall_mem_cons] at vanish none
    rw [List.cons_append, ahead, if_neg none.1, if_pos vanish.1, ih vanish.2 none.2]

/-- Before the symbol of a body that leads to the lookahead there is none that leads there as well:
the lookahead follows what comes before. -/
private theorem Predicts.ahead_body_le (predicts : T.Predicts G) {head t : Symbol}
    {body stack : Word} {height : Nat} (mem : (head, body) ∈ G.table.productions)
    (fronted : Grammar.Fronted G.Vanishes (G.LeadsWithin t height) body) :
    ahead G t (body ++ stack) ≤ height := by
  suffices down : ∀ before rest, body = before ++ rest →
      Grammar.Fronted G.Vanishes (G.LeadsWithin t height) rest →
      ahead G t (rest ++ stack) ≤ height from
    down [] body rfl fronted
  intro before rest whole fronted
  induction rest generalizing before with
  | nil => exact fronted.elim
  | cons symbol rest ih =>
    rw [List.cons_append, ahead]
    rcases fronted with lead | ⟨vanish, later⟩
    · rw [if_pos ⟨height, lead⟩]
      exact lead.leadHeight_le
    · have follows : t ∈ G.followSets.of symbol :=
        predicts.fits.followSets_closed predicts.free (whole ▸ mem) (vanish.mem predicts.free)
          (Or.inl (Grammar.begins_iff_exists_height.mpr ⟨height, later⟩))
      rw [if_neg (predicts.not_leads_of_follows vanish follows), if_pos vanish]
      exact ih (before ++ [symbol]) (by simp [whole]) later

theorem stackWeight_body_lt (free : G.ContextFree) {head t : Symbol} {body : Word}
    (found : T.body? head t = some body) : T.stackWeight G body < T.stride G := by
  have each := stackWeight_le (T := T) fun symbol (_ : symbol ∈ body) => weight_le free symbol
  have short := Nat.mul_le_mul_right (T.heaviest G) (length_le_longestBody found)
  rw [stride]
  omega

private theorem Predicts.expand_leading_lt (predicts : T.Predicts G) {head t : Symbol}
    {body stack : Word} (found : T.body? head t = some body) (begins : G.Begins t body) :
    T.stackWeight G body + ahead G t (body ++ stack) * T.stride G <
      T.weight G head + ahead G t (head :: stack) * T.stride G := by
  obtain ⟨mem, _⟩ := predicts.body_iff.mp found
  have lead : G.Leads t head := Grammar.leads_iff.mpr (Or.inr ⟨body, mem, begins⟩)
  obtain ⟨lower, height⟩ := Grammar.leads_height lead.within (predicts.free.head_mem mem)
  have deep : ahead G t (body ++ stack) ≤ lower := by
    have within := lead.within
    rw [height] at within
    obtain ⟨other, mem', fronted⟩ := within
    have begins' := Grammar.begins_iff_exists_height.mpr ⟨lower, fronted⟩
    obtain rfl := predicts.claims_unique ⟨mem, Or.inl begins⟩ ⟨mem', Or.inl begins'⟩
    exact predicts.ahead_body_le mem fronted
  have light := stackWeight_body_lt predicts.free found
  rw [ahead, if_pos lead, height, Nat.succ_mul]
  have down := Nat.mul_le_mul_right (T.stride G) deep
  omega

theorem Predicts.follows_body (predicts : T.Predicts G) {head t : Symbol} {body : Word}
    (mem : (head, body) ∈ G.table.productions) (all : ∀ symbol ∈ body, G.Vanishes symbol)
    (follows : t ∈ G.followSets.of head) : ∀ symbol ∈ body, t ∈ G.followSets.of symbol := by
  intro symbol member
  obtain ⟨before, rest, rfl⟩ := List.append_of_mem member
  apply predicts.fits.followSets_closed predicts.free mem ((all symbol member).mem predicts.free)
  refine Or.inr ⟨fun other inside => all other ?_, follows⟩
  exact List.mem_append_right _ (List.mem_cons_of_mem symbol inside)

private theorem Predicts.expand_vanishing_lt (predicts : T.Predicts G) {head t : Symbol}
    {body stack : Word} (found : T.body? head t = some body)
    (all : ∀ symbol ∈ body, G.Vanishes symbol) (follows : t ∈ G.followSets.of head) :
    T.stackWeight G body + ahead G t (body ++ stack) * T.stride G <
      T.weight G head + ahead G t (head :: stack) * T.stride G := by
  obtain ⟨mem, _⟩ := predicts.body_iff.mp found
  have vanish : G.Vanishes head := Grammar.vanishes_iff.mpr ⟨body, mem, all⟩
  have none : ∀ symbol ∈ body, ¬ G.Leads t symbol := fun symbol member =>
    predicts.not_leads_of_follows (all symbol member)
      (predicts.follows_body mem all follows symbol member)
  have light : T.stackWeight G body < T.weight G head := by
    rw [weight]
    have within := vanish.within
    cases height : G.vanishHeight head with
    | zero =>
      rw [height] at within
      exact within.elim
    | succ lower =>
      rw [height] at within
      obtain ⟨other, mem', low⟩ := within
      obtain rfl := predicts.claims_unique ⟨mem, Or.inr ⟨all, follows⟩⟩
        ⟨mem', Or.inr ⟨fun symbol member => ⟨lower, low symbol member⟩, follows⟩⟩
      have each : T.stackWeight G body ≤ body.length * (T.longestBody + 2) ^ lower := by
        refine stackWeight_le fun symbol member => Nat.pow_le_pow_right (by omega) ?_
        exact (low symbol member).vanishHeight_le
      have positive : 0 < (T.longestBody + 2) ^ lower := Nat.pow_pos (by omega)
      have short := Nat.mul_lt_mul_of_pos_right
        (show body.length < T.longestBody + 2 by
          have short := length_le_longestBody found
          omega) positive
      rw [Nat.pow_succ']
      omega
  rw [ahead, if_neg (predicts.not_leads_of_follows vanish follows), if_pos vanish,
    ahead_append all none]
  omega

private theorem Predicts.expand_lt (predicts : T.Predicts G) {head t : Symbol} {body stack : Word}
    (found : T.body? head t = some body) :
    T.stackWeight G body + ahead G t (body ++ stack) * T.stride G <
      T.weight G head + ahead G t (head :: stack) * T.stride G := by
  obtain ⟨_, begins | ⟨all, follows⟩⟩ := predicts.body_iff.mp found
  · exact predicts.expand_leading_lt found begins
  · exact predicts.expand_vanishing_lt found all follows

/-- Every step that is not the last one lowers the potential, as long as there is a stack. -/
theorem Predicts.potential_after_lt (predicts : T.Predicts G) {c : ParseConfig}
    (goesOn : (T.action c).isFinal = false) (stacked : c.stack ≠ []) :
    T.potential G (c.after (T.action c)) < T.potential G c := by
  rcases action_cases c with ⟨accepts, _⟩ | ⟨body, _, _, found, expands⟩ |
    ⟨a, stack, input, rfl, _, _, reads⟩ | rejects
  · rw [accepts] at goesOn
    cases goesOn
  · obtain ⟨_ | ⟨head, stack⟩, input⟩ := c
    · exact absurd rfl stacked
    · rw [expands]
      have lower : T.stackWeight G body +
          ahead G (ParseConfig.mk (head :: stack) input).lookahead (body ++ stack) * T.stride G <
          T.weight G head +
            ahead G (ParseConfig.mk (head :: stack) input).lookahead (head :: stack) * T.stride G :=
        predicts.expand_lt found
      show T.stackWeight G (body ++ stack) +
        ahead G (ParseConfig.mk (head :: stack) input).lookahead (body ++ stack) * T.stride G +
        input.length * T.turn G < T.stackWeight G (head :: stack) +
        ahead G (ParseConfig.mk (head :: stack) input).lookahead (head :: stack) * T.stride G +
        input.length * T.turn G
      rw [stackWeight_append, stackWeight_cons]
      omega
  · rw [reads]
    show T.stackWeight G stack + ahead G (ParseConfig.mk stack input).lookahead stack * T.stride G +
      input.length * T.turn G < T.stackWeight G (a :: stack) +
      ahead G a (a :: stack) * T.stride G + (input.length + 1) * T.turn G
    have near := Nat.mul_le_mul_right (T.stride G)
      (ahead_le predicts.free (ParseConfig.mk stack input).lookahead stack)
    rw [stackWeight_cons, Nat.succ_mul]
    have worth : T.turn G = (G.nonTerminals.size + 1) * T.stride G + 1 := rfl
    omega
  · rw [rejects] at goesOn
    cases goesOn

end Potential

section Bound

/-- What the bound leaves for each symbol of the input: a turn, and as much for the first stack. -/
def share (T : PredictiveTable) (G : Grammar) : Nat :=
  (G.nonTerminals.size + 2) * ((T.longestBody + 2) * T.heaviest G) + 1

private theorem heaviest_pos (T : PredictiveTable) (G : Grammar) : 0 < T.heaviest G :=
  Nat.pow_pos (by omega)

theorem strides_lt_share (T : PredictiveTable) (G : Grammar) :
    (G.nonTerminals.size + 2) * T.stride G < T.share G := by
  have positive := heaviest_pos T G
  have step : T.stride G ≤ (T.longestBody + 2) * T.heaviest G := by
    rw [stride, Nat.add_mul]
    omega
  exact Nat.lt_succ_of_le (Nat.mul_le_mul_left _ step)

private theorem turn_le_share (T : PredictiveTable) (G : Grammar) : T.turn G ≤ T.share G := by
  have strides := strides_lt_share T G
  rw [Nat.succ_mul] at strides
  rw [turn]
  omega

private theorem two_heaviest_le_share (T : PredictiveTable) (G : Grammar) :
    2 * T.heaviest G ≤ T.share G := by
  have wide : 2 * T.heaviest G ≤ (T.longestBody + 2) * T.heaviest G :=
    Nat.mul_le_mul_right _ (by omega)
  have all : (T.longestBody + 2) * T.heaviest G ≤
      (G.nonTerminals.size + 2) * ((T.longestBody + 2) * T.heaviest G) :=
    Nat.le_mul_of_pos_left _ (by omega)
  rw [share]
  omega

theorem Predicts.shares_le_stepBound (predicts : T.Predicts G) (length : Nat) :
    (length + 3) ^ 2 * T.share G ≤ T.stepBound length := by
  rw [stepBound, predicts.nonTerminals]
  apply Nat.mul_le_mul_left
  have whole : (G.nonTerminals.size + 2) * ((T.longestBody + 2) * T.heaviest G) ≤
      (T.longestBody + 2) * (G.nonTerminals.size + 2) *
        (T.longestBody + 2) ^ (G.nonTerminals.size + 2) := by
    calc (G.nonTerminals.size + 2) * ((T.longestBody + 2) * T.heaviest G)
        = (T.longestBody + 2) * (G.nonTerminals.size + 2) *
          (T.longestBody + 2) ^ G.nonTerminals.size := by rw [heaviest]; ring
      _ ≤ _ := Nat.mul_le_mul_left _ (Nat.pow_le_pow_right (by omega) (by omega))
  show T.share G ≤ (T.longestBody + 2) * (G.nonTerminals.size + 2) *
    (T.longestBody + 2) ^ (G.nonTerminals.size + 2) + 2
  rw [share]
  omega

theorem length_input_initial (word : Word) : (T.initial word).input.length = word.length + 1 := by
  rw [initial, List.length_append, List.length_singleton]

theorem Predicts.potential_initial_lt_shares (predicts : T.Predicts G) (word : Word) :
    T.potential G (T.initial word) < (word.length + 3) * T.share G := by
  have stack : T.stackWeight G (T.initial word).stack ≤ 2 * T.heaviest G :=
    stackWeight_le fun symbol _ => weight_le predicts.free symbol
  have near := Nat.mul_le_mul_right (T.stride G)
    (ahead_le predicts.free (T.initial word).lookahead (T.initial word).stack)
  have worth : T.turn G = (G.nonTerminals.size + 1) * T.stride G + 1 := rfl
  have one_turn := turn_le_share T G
  have turns := Nat.mul_le_mul_left (word.length + 1) one_turn
  have two_symbols := two_heaviest_le_share T G
  have parts : (word.length + 3) * T.share G =
      (word.length + 1) * T.share G + T.share G + T.share G := by
    ring
  rw [potential, length_input_initial]
  omega

theorem Predicts.potential_initial_lt (predicts : T.Predicts G) (word : Word) :
    T.potential G (T.initial word) < T.stepBound word.length :=
  calc T.potential G (T.initial word) < (word.length + 3) * T.share G :=
        predicts.potential_initial_lt_shares word
    _ ≤ (word.length + 3) ^ 2 * T.share G := Nat.mul_le_mul_right _ (Nat.le_self_pow (by omega) _)
    _ ≤ T.stepBound word.length := predicts.shares_le_stepBound word.length

end Bound

end LanguageTheory.PredictiveTable

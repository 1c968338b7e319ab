import LanguageTheory.Automaton.Run

/-!
Paths of an automaton. A path joins two states by transitions, and its labels, with `ε` left out,
spell a word. `Automaton.Recognizes` says that a word is spelled on the way from the entry to an
accepting state, without following several states at once as `Automaton.accepts` does.
-/

set_option autoImplicit false
set_option relaxedAutoImplicit false

namespace LanguageTheory.Automaton

def Moves (A : Automaton) (source : StateName) (label : Symbol) (target : StateName) : Prop :=
  ∃ t ∈ A.transitions, t.source = source ∧ t.label = label ∧ t.target = target

theorem mem_targets_iff_moves {A : Automaton} {source target : StateName} {label : Symbol} :
    target ∈ A.targets source label ↔ A.Moves source label target := mem_targets

theorem mem_silentTargets {A : Automaton} {source target : StateName} :
    target ∈ A.silentTargets source ↔ A.Moves source Symbol.epsilon target := by
  simp only [silentTargets, transitionsFrom, Moves, Transition.isSilent, List.mem_map,
    List.mem_filter, OrderedSet.mem_toList, decide_eq_true_eq, and_assoc]

/-- A way from one state to another whose labels spell a word. -/
inductive Path (A : Automaton) : StateName → Word → StateName → Prop
  | stay (name : StateName) : Path A name [] name
  | silent {source middle target : StateName} {word : Word}
      (move : A.Moves source Symbol.epsilon middle) (rest : Path A middle word target) :
      Path A source word target
  | read {source middle target : StateName} {label : Symbol} {word : Word}
      (visible : label ≠ Symbol.epsilon) (move : A.Moves source label middle)
      (rest : Path A middle word target) : Path A source (label :: word) target

inductive SilentPath (A : Automaton) : StateName → StateName → Prop
  | stay (name : StateName) : SilentPath A name name
  | silent {source middle target : StateName} (move : A.Moves source Symbol.epsilon middle)
      (rest : SilentPath A middle target) : SilentPath A source target

def AcceptsFrom (A : Automaton) (name : StateName) (word : Word) : Prop :=
  ∃ last, A.Path name word last ∧ A.isExit last = true

/-- Some path from the entry to an accepting state spells the word. -/
def Recognizes (A : Automaton) (word : Word) : Prop := A.AcceptsFrom A.entry word

theorem SilentPath.trans {A : Automaton} {source middle target : StateName}
    (first : A.SilentPath source middle) (second : A.SilentPath middle target) :
    A.SilentPath source target := by
  induction first with
  | stay name => exact second
  | silent move _ ih => exact .silent move (ih second)

theorem SilentPath.path {A : Automaton} {source target : StateName}
    (way : A.SilentPath source target) : A.Path source [] target := by
  induction way with
  | stay name => exact .stay name
  | silent move _ ih => exact .silent move ih

/-- If every move of one automaton is a move of another one, so is every path. -/
theorem Path.of_moves {A B : Automaton} {source target : StateName} {word : Word}
    (moves : ∀ {p label q}, A.Moves p label q → B.Moves p label q)
    (way : A.Path source word target) : B.Path source word target := by
  induction way with
  | stay name => exact .stay name
  | silent move _ ih => exact .silent (moves move) ih
  | read visible move _ ih => exact .read visible (moves move) ih

theorem Path.append {A : Automaton} {source middle target : StateName} {u v : Word}
    (first : A.Path source u middle) (second : A.Path middle v target) :
    A.Path source (u ++ v) target := by
  induction first with
  | stay name => exact second
  | silent move _ ih => exact .silent move (ih second)
  | read visible move _ ih => exact .read visible move (ih second)

theorem path_nil_iff {A : Automaton} {source target : StateName} :
    A.Path source [] target ↔ A.SilentPath source target := by
  refine ⟨fun way => ?_, SilentPath.path⟩
  generalize spelled : ([] : Word) = word at way
  induction way with
  | stay name => exact .stay name
  | silent move _ ih => exact .silent move (ih spelled)
  | read _ _ _ _ => exact nomatch spelled

theorem path_cons_iff {A : Automaton} {source target : StateName} {label : Symbol} {word : Word} :
    A.Path source (label :: word) target ↔ label ≠ Symbol.epsilon ∧
      ∃ before after, A.SilentPath source before ∧ A.Moves before label after ∧
        A.Path after word target := by
  constructor
  · intro way
    generalize spelled : label :: word = whole at way
    induction way with
    | stay name => exact nomatch spelled
    | silent move _ ih =>
      obtain ⟨visible, before, after, silent, reading, rest⟩ := ih spelled
      exact ⟨visible, before, after, .silent move silent, reading, rest⟩
    | read visible move rest _ =>
      obtain ⟨rfl, rfl⟩ := List.cons.inj spelled
      exact ⟨visible, _, _, .stay _, move, rest⟩
  · rintro ⟨visible, before, after, silent, reading, rest⟩
    exact silent.path.append (.read visible reading rest)

end LanguageTheory.Automaton

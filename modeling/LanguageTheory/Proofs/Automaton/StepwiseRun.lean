import LanguageTheory.Automaton.Run
import LanguageTheory.Proofs.Automaton.Deterministic
import LanguageTheory.Proofs.Automaton.TransitionChain

/-!
Runs one symbol at a time. A call either takes a transition that fits the next symbol or ends the
run (`next_cases`), so a run unfolds into the transitions it takes and the outcome it reports
(`Unfolds`). On a deterministic automaton it reads as much of the word as any path can and reports
what `accepts` answers; on any automaton an accepting outcome is right (`next_exact`).
-/

set_option autoImplicit false
set_option relaxedAutoImplicit false

namespace LanguageTheory.Stepwise

variable {A : Automaton}

def after (A : Automaton) : Nat → Stepwise → Stepwise
  | 0, run => run
  | count + 1, run => after A count (next A run).2

/-- The next call takes a transition, which reads the first of the remaining symbols. -/
structure Takes (A : Automaton) (run : Stepwise) (t : Transition) (later : Stepwise) : Prop where
  step : next A run = (some (.took t), later)
  going : later.isOver = false
  mem : t ∈ A.transitions
  leaves : t.source = run.current
  arrives : later.current = t.target
  reads : run.remaining = t.label :: later.remaining

/-- The next call ends the run, because the input is used up or no transition fits its next
symbol. -/
structure Stops (A : Automaton) (run : Stepwise) (accepted : Bool) : Prop where
  step : next A run = (some (.finished accepted), { run with isOver := true })
  outcome : (run.remaining = [] ∧ accepted = A.isExit run.current) ∨
    ∃ symbol rest, run.remaining = symbol :: rest ∧
    (∀ target, ¬ A.Moves run.current symbol target) ∧
      accepted = false

theorem next_cases {run : Stepwise} (going : run.isOver = false) :
    (∃ t later, Takes A run t later) ∨ ∃ accepted, Stops A run accepted := by
  cases found : run.input[run.position]? with
  | none =>
    have used : run.remaining = [] :=
      List.drop_eq_nil_of_le (List.getElem?_eq_none_iff.mp found)
    exact Or.inr ⟨_, by simp [next, going, found], Or.inl ⟨used, rfl⟩⟩
  | some symbol =>
    have reads : run.remaining = symbol :: run.input.drop (run.position + 1) := by
      obtain ⟨inside, rfl⟩ := List.getElem?_eq_some_iff.mp found
      exact List.drop_eq_getElem_cons inside
    cases fits : (A.transitionsFrom run.current).find? fun t => decide (t.label = symbol) with
    | none =>
      refine Or.inr ⟨false, by simp [next, going, found, fits], Or.inr ⟨symbol, _, reads, ?_, rfl⟩⟩
      rintro target ⟨t, mem, leaves, label, _⟩
      have refused := List.find?_eq_none.mp fits t
        (List.mem_filter.mpr ⟨mem, decide_eq_true leaves⟩)
      exact refused (decide_eq_true label)
    | some t =>
      have label : t.label = symbol := by simpa using List.find?_some fits
      obtain ⟨mem, leaves⟩ := List.mem_filter.mp (List.mem_of_find?_eq_some fits)
      exact Or.inl ⟨t, ⟨run.input, run.position + 1, t.target, run.isOver⟩, {
        step := by simp [next, going, found, fits]
        going := going
        mem := mem
        leaves := of_decide_eq_true leaves
        arrives := rfl
        reads := label ▸ reads }⟩

private theorem after_over {run : Stepwise} (ended : run.isOver = true) (count : Nat) :
    after A count run = run := by
  induction count with
  | zero => rfl
  | succ count ih =>
    have idle : next A run = (none, run) := by simp [next, ended]
    rw [after, idle, ih]

private theorem Takes.after_succ {run later : Stepwise} {t : Transition}
    (takes : Takes A run t later) (count : Nat) :
    after A (count + 1) run = after A count later := by rw [after, takes.step]

private theorem Stops.after_succ {run : Stepwise} {accepted : Bool} (stops : Stops A run accepted)
    (count : Nat) : after A (count + 1) run = { run with isOver := true } := by
  rw [after, stops.step, after_over rfl]

/-- A run with the transitions it takes, the point at which it stops and the outcome it reports. -/
inductive Unfolds (A : Automaton) : Stepwise → List Transition → Stepwise → Bool → Prop
  | stop {run : Stepwise} {accepted : Bool} (stops : Stops A run accepted) :
      Unfolds A run [] run accepted
  | take {run later last : Stepwise} {t : Transition} {way : List Transition} {accepted : Bool}
      (takes : Takes A run t later) (rest : Unfolds A later way last accepted) :
      Unfolds A run (t :: way) last accepted

private theorem exists_unfolds {run : Stepwise} (going : run.isOver = false) :
    ∃ way last accepted, Unfolds A run way last accepted := by
  generalize unread : run.remaining = word
  induction word generalizing run with
  | nil =>
    rcases next_cases (A := A) going with ⟨t, later, takes⟩ | ⟨accepted, stops⟩
    · rw [takes.reads] at unread
      cases unread
    · exact ⟨_, _, _, .stop stops⟩
  | cons symbol word ih =>
    rcases next_cases (A := A) going with ⟨t, later, takes⟩ | ⟨accepted, stops⟩
    · rw [takes.reads] at unread
      obtain ⟨way, last, accepted, rest⟩ := ih takes.going (List.cons.inj unread).2
      exact ⟨_, _, _, .take takes rest⟩
    · exact ⟨_, _, _, .stop stops⟩

namespace Unfolds

variable {run last : Stepwise} {way : List Transition} {accepted : Bool}

private theorem chain (unfolds : Unfolds A run way last accepted) :
    A.Chain run.current way last.current := by
  induction unfolds with
  | stop _ => exact .stay _
  | take takes _ ih =>
    rw [takes.arrives] at ih
    exact .take takes.mem takes.leaves ih

private theorem stops (unfolds : Unfolds A run way last accepted) : Stops A last accepted := by
  induction unfolds with
  | stop stops => exact stops
  | take _ _ ih => exact ih

private theorem reads (unfolds : Unfolds A run way last accepted) :
    run.remaining = way.map Transition.label ++ last.remaining := by
  induction unfolds with
  | stop _ => rfl
  | take takes _ ih => rw [takes.reads, ih, List.map_cons, List.cons_append]

private theorem call (unfolds : Unfolds A run way last accepted) (count : Nat) :
    (next A (after A count run)).1 = (way.map Step.took ++ [.finished accepted])[count]? := by
  induction unfolds generalizing count with
  | stop stops =>
    cases count with
    | zero => rw [after, stops.step]; rfl
    | succ count => rw [stops.after_succ]; rfl
  | take takes _ ih =>
    cases count with
    | zero => rw [after, takes.step]; rfl
    | succ count => rw [takes.after_succ, ih count]; rfl

private theorem current (unfolds : Unfolds A run way last accepted) (count : Nat) :
    (after A count run).current = (way.take count).getLast?.elim run.current Transition.target := by
  induction unfolds generalizing count with
  | stop stops =>
    cases count with
    | zero => rfl
    | succ count => rw [stops.after_succ]; rfl
  | take takes _ ih =>
    cases count with
    | zero => rfl
    | succ count =>
      rw [takes.after_succ, ih count, takes.arrives, List.take_succ_cons, List.getLast?_cons]
      cases (List.take count _).getLast? with
      | none => rfl
      | some _ => rfl

private theorem remaining (unfolds : Unfolds A run way last accepted) (count : Nat) :
    (way.take count).map Transition.label ++ (after A count run).remaining = run.remaining := by
  induction unfolds generalizing count with
  | stop stops =>
    cases count with
    | zero => rfl
    | succ count => rw [stops.after_succ]; rfl
  | take takes _ ih =>
    cases count with
    | zero => rfl
    | succ count => rw [takes.after_succ, takes.reads, ← ih count]; rfl

private theorem longest (unfolds : Unfolds A run way last accepted) (det : A.Deterministic)
    {read : Word} {target : StateName} (start : read <+: run.remaining)
    (path : A.Path run.current read target) :
    read.length ≤ way.length := by
  induction unfolds generalizing read with
  | @stop run accepted stops =>
    cases read with
    | nil => exact Nat.le_refl 0
    | cons symbol read =>
      obtain ⟨middle, move, _⟩ := det.path_cons.mp path
      rcases stops.outcome with ⟨used, _⟩ | ⟨_, rest, unread, stuck, _⟩
      · rw [used] at start
        cases List.prefix_nil.mp start
      · rw [unread] at start
        obtain ⟨rfl, _⟩ := List.cons_prefix_cons.mp start
        exact absurd move (stuck middle)
  | @take run later last t way accepted takes _ ih =>
    cases read with
    | nil => exact Nat.zero_le _
    | cons symbol read =>
      rw [takes.reads] at start
      obtain ⟨rfl, later_start⟩ := List.cons_prefix_cons.mp start
      obtain ⟨middle, move, later_path⟩ := det.path_cons.mp path
      obtain rfl := det.moves_unique ⟨t, takes.mem, takes.leaves, rfl, rfl⟩ move
      exact Nat.succ_le_succ (ih later_start (takes.arrives ▸ later_path))

private theorem path (unfolds : Unfolds A run way last accepted)
    (visible : Symbol.epsilon ∉ way.map Transition.label) :
    A.Path run.current (way.map Transition.label) last.current :=
  Transition.spelled_eq_map visible ▸ unfolds.chain.path

private theorem recognizes {word : Word} (unfolds : Unfolds A (start A word) way last accepted)
    (visible : Symbol.epsilon ∉ way.map Transition.label) (yes : accepted = true) :
    A.Recognizes word := by
  have reads : word = way.map Transition.label ++ last.remaining := unfolds.reads
  rcases unfolds.stops.outcome with ⟨used, here⟩ | ⟨_, _, _, _, no⟩
  · have path : A.Path A.entry (way.map Transition.label) last.current := unfolds.path visible
    rw [used, List.append_nil] at reads
    exact ⟨last.current, reads ▸ path, here.symm.trans yes⟩
  · rw [yes] at no
    cases no

private theorem accepted_eq {word : Word} (unfolds : Unfolds A (start A word) way last accepted)
    (det : A.Deterministic) : accepted = A.accepts word := by
  have visible : Symbol.epsilon ∉ way.map Transition.label := by
    intro mem
    obtain ⟨t, taken, silent⟩ := List.mem_map.mp mem
    exact (Automaton.deterministic_iff.mp det).1 t (unfolds.chain.mem_transitions taken) silent
  rw [Bool.eq_iff_iff, det.accepts_iff]
  refine ⟨unfolds.recognizes visible, ?_⟩
  rintro ⟨target, path, isExit⟩
  have reads : word = way.map Transition.label ++ last.remaining := unfolds.reads
  have whole := unfolds.longest det (List.prefix_refl word) path
  rw [reads, List.length_append, List.length_map] at whole
  have used : last.remaining = [] := List.eq_nil_of_length_eq_zero (by omega)
  have taken : A.Path A.entry (way.map Transition.label) last.current := unfolds.path visible
  rw [used, List.append_nil] at reads
  obtain rfl := det.path_unique (reads ▸ taken) path
  rcases unfolds.stops.outcome with ⟨_, here⟩ | ⟨_, _, unread, _⟩
  · exact here.trans isExit
  · rw [used] at unread
    cases unread

end Unfolds

/-- On a deterministic automaton the calls yield a chain of its transitions from the entry, which
reads as long a beginning of the word as any path does, then once what `accepts` answers, then
nothing. After each call the run stands where the last transition led, and what it has read and what
remains are the word. On any automaton an accepting outcome means that a word without `ε` is
accepted. -/
theorem next_exact (A : Automaton) (word : Word) :
    (A.Deterministic → ∃ way last, A.Chain A.entry way last ∧ way.map Transition.label <+: word ∧
      (∀ read target, read <+: word → A.Path A.entry read target → read.length ≤ way.length) ∧
      (∀ count, (next A (after A count (start A word))).1 =
        (way.map Step.took ++ [.finished (A.accepts word)])[count]?) ∧
      ∀ count,
        (after A count (start A word)).current =
          (way.take count).getLast?.elim A.entry Transition.target ∧
        (way.take count).map Transition.label ++ (after A count (start A word)).remaining = word) ∧
    (Symbol.epsilon ∉ word →
      (∃ count, (next A (after A count (start A word))).1 = some (.finished true)) →
        A.accepts word = true) := by
  have going : (start A word).isOver = false := rfl
  obtain ⟨way, last, accepted, unfolds⟩ := exists_unfolds (A := A) going
  have reads : word = way.map Transition.label ++ last.remaining := unfolds.reads
  constructor
  · intro det
    have answer := unfolds.accepted_eq det
    refine ⟨way, last.current, unfolds.chain, ⟨last.remaining, reads.symm⟩, ?_, ?_, ?_⟩
    · exact fun _ _ start path => unfolds.longest det start path
    · exact fun count => answer ▸ unfolds.call count
    · exact fun count => ⟨unfolds.current count, unfolds.remaining count⟩
  · rintro visible ⟨count, finished⟩
    rw [unfolds.call] at finished
    have yes : accepted = true := by
      rcases List.mem_append.mp (List.mem_of_getElem? finished) with mem | mem
      · obtain ⟨_, _, took⟩ := List.mem_map.mp mem
        cases took
      · cases List.mem_singleton.mp mem
        rfl
    rw [Automaton.accepts_iff_recognizes (Automaton.readable_of_visible visible)]
    refine unfolds.recognizes (fun mem => visible ?_) yes
    rw [reads]
    exact List.mem_append_left _ mem

theorem next_exact_stuck_and_accepting :
    let built := Automaton.ofParts [⟨"p", ⟨true, true⟩⟩, ⟨"q", ⟨false, false⟩⟩]
      (OrderedSet.ofList ["a", "b"]) [.plain "p" "a" "q", .plain "q" "b" "p"]
    ∃ A, built = .ok A ∧ A.Deterministic ∧
      (∃ way : List Transition, way.map Transition.label <+: ["a", "a"] ∧
        ∀ count, (next A (after A count (start A ["a", "a"]))).1 =
          (way.map Step.took ++ [.finished (A.accepts ["a", "a"])])[count]?) ∧
      Symbol.epsilon ∉ ["a", "b"] ∧
      (next A (after A 2 (start A ["a", "b"]))).1 = some (.finished true) ∧
      A.accepts ["a", "b"] = true := by
  intro built
  obtain ⟨A, accepted, det, finished⟩ : ∃ A, built = .ok A ∧ A.Deterministic ∧
      (next A (after A 2 (start A ["a", "b"]))).1 = some (.finished true) :=
    ⟨_, rfl, by decide, by decide⟩
  obtain ⟨way, _, _, reads, _, calls, _⟩ := (next_exact A ["a", "a"]).1 det
  exact ⟨A, accepted, det, ⟨way, reads, calls⟩, by decide, finished,
    (next_exact A ["a", "b"]).2 (by decide) ⟨2, finished⟩⟩

end LanguageTheory.Stepwise

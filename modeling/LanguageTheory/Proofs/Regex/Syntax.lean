import LanguageTheory.Proofs.Regex.RoundTrip

/-!
The syntax of expressions. `Phrase` is the grammar of what may be written, without regard to how it
is read. The reader has read a text exactly if an expression can begin with it (`canBegin_iff`):
what it keeps spells the text (`Reader.Spells`), and from any state a few characters lead to an end.
So a text is read exactly if it is an expression, and otherwise the reader stops at the first
character with which no expression can go on.
-/

set_option autoImplicit false
set_option relaxedAutoImplicit false

namespace LanguageTheory.Regex

def operators : List Char := ['(', ')', '|', '*', '+', '?', '.', '•']

inductive PhraseKind where
  | alternatives
  | sequence
  | terms
  | term
  | atom

inductive Phrase : PhraseKind → List Char → Prop
  | alone {u : List Char} (sequence : Phrase .sequence u) : Phrase .alternatives u
  | bar {u v : List Char} (first : Phrase .sequence u) (rest : Phrase .alternatives v) :
      Phrase .alternatives (u ++ '|' :: v)
  | empty : Phrase .sequence []
  | filled {u : List Char} (terms : Phrase .terms u) : Phrase .sequence u
  | first {u : List Char} (term : Phrase .term u) : Phrase .terms u
  | next {u dots v : List Char} (before : Phrase .terms u) (dotted : ∀ c ∈ dots, c = '.' ∨ c = '•')
      (last : Phrase .term v) : Phrase .terms (u ++ dots ++ v)
  | once {u : List Char} (atom : Phrase .atom u) : Phrase .term u
  | repeated {u : List Char} {c : Char} (term : Phrase .term u)
      (operator : c = '*' ∨ c = '+' ∨ c = '?') :
      Phrase .term (u ++ [c])
  | group {u : List Char} (inside : Phrase .alternatives u) : Phrase .atom ('(' :: (u ++ [')']))
  | plain {c : Char} (other : c ∉ operators) : Phrase .atom [c]

def IsExpression (chars : List Char) : Prop := Phrase .alternatives chars

/-- Some expression begins with the characters. -/
def CanBegin (chars : List Char) : Prop := ∃ rest, IsExpression (chars ++ rest)

variable {u v : List Char} {c : Char}

private theorem Phrase.next_term (before : Phrase .terms u) (last : Phrase .term v) :
    Phrase .terms (u ++ v) := by
  have undotted : ∀ d ∈ ([] : List Char), d = '.' ∨ d = '•' :=
    fun d mem => absurd mem List.not_mem_nil
  simpa using before.next undotted last

private theorem Phrase.terms_repeated (terms : Phrase .terms u)
    (operator : c = '*' ∨ c = '+' ∨ c = '?') :
    Phrase .terms (u ++ [c]) := by
  cases terms with
  | first term => exact .first (.repeated term operator)
  | next before dotted last =>
    rw [List.append_assoc]
    exact .next before dotted (.repeated last operator)

namespace Reader

variable {reader middle after : Reader}

inductive Reads : Reader → List Char → Reader → Prop
  | nil (reader : Reader) : Reads reader [] reader
  | cons {reader middle after : Reader} {c : Char} {rest : List Char}
      (step : reader.read c = .ok middle)
      (more : Reads middle rest after) : Reads reader (c :: rest) after

private theorem Reads.append (first : Reads reader u middle) (second : Reads middle v after) :
    Reads reader (u ++ v) after := by
  induction first with
  | nil _ => exact second
  | cons step _ ih => exact .cons step (ih second)

theorem Reads.split (reads : Reads reader (u ++ v) after) :
    ∃ middle, Reads reader u middle ∧ Reads middle v after := by
  induction u generalizing reader with
  | nil => exact ⟨reader, .nil reader, reads⟩
  | cons c u ih =>
    cases reads with
    | cons step more =>
      obtain ⟨middle, first, second⟩ := ih more
      exact ⟨middle, .cons step first, second⟩

private theorem reads_single (step : reader.read c = .ok after) : Reads reader [c] after :=
  .cons step (.nil after)

private theorem read_plain_or_epsilon (other : c ∉ operators) :
    ∃ atom, ∀ reader : Reader, reader.read c = .ok (reader.term atom) := by
  by_cases sign : c ∈ signs
  · have empty : c = 'ε' ∨ c = '&' := by
      simp only [signs, operators, List.mem_cons, List.not_mem_nil, or_false, not_or] at sign other
      grind
    rcases empty with rfl | rfl
    · exact ⟨epsilon, fun _ => rfl⟩
    · exact ⟨epsilon, fun _ => rfl⟩
  · refine ⟨literal (String.ofList [c]), fun reader => ?_⟩
    unfold read
    split
    all_goals first | rfl | exact absurd (by decide) sign

end Reader

section Spelling

def Sequence.Spells : Sequence → List Char → Prop
  | empty, u => u = []
  | single _, u => Phrase .terms u
  | several _ _, u => Phrase .terms u
  | dotted _, u =>
    ∃ before dots, u = before ++ dots ∧ Phrase .terms before ∧ ∀ c ∈ dots, c = '.' ∨ c = '•'

/-- The text that has been read of a group: alternatives that others may follow, and a sequence. -/
def Group.Spells (group : Group) (u : List Char) : Prop :=
  ∃ earlier current, u = earlier ++ current ∧ group.sequence.Spells current ∧
    ∀ v, Phrase .alternatives v → Phrase .alternatives (earlier ++ v)

def SpellsOpen : List Group → List Char → Prop
  | [], u => u = []
  | group :: outer, u =>
    ∃ before inside, u = before ++ (inside ++ ['(']) ∧ SpellsOpen outer before ∧
      group.Spells inside

def Reader.Spells (reader : Reader) (u : List Char) : Prop :=
  ∃ before inside, u = before ++ inside ∧ SpellsOpen reader.outer before ∧
  reader.inner.Spells inside

variable {sequence sequence' : Sequence} {group group' : Group} {reader after : Reader}
  {atom r : Regex}

private theorem Sequence.Spells.append (spells : sequence.Spells u) (term : Phrase .term v) :
    (sequence.append atom).Spells (u ++ v) := by
  cases sequence with
  | empty =>
    obtain rfl : u = [] := spells
    exact Phrase.first term
  | single _ =>
    exact Phrase.next_term spells term
  | several _ _ =>
    exact Phrase.next_term spells term
  | dotted _ =>
    obtain ⟨before, dots, rfl, terms, dotted⟩ := spells
    exact terms.next dotted term

private theorem Sequence.Spells.dot (spells : sequence.Spells u) (dotted : c = '.' ∨ c = '•')
    (step : sequence.dot = .ok sequence') : sequence'.Spells (u ++ [c]) := by
  cases sequence with
  | empty => cases step
  | single _ =>
    cases step
    exact ⟨u, [c], rfl, spells, by simpa using dotted⟩
  | several _ _ =>
    cases step
    exact ⟨u, [c], rfl, spells, by simpa using dotted⟩
  | dotted _ =>
    cases step
    obtain ⟨before, dots, rfl, terms, all⟩ := spells
    refine ⟨before, dots ++ [c], List.append_assoc _ _ _, terms, ?_⟩
    intro d mem
    rcases List.mem_append.mp mem with old | new
    · exact all d old
    · exact List.mem_singleton.mp new ▸ dotted

private theorem Sequence.Spells.mapLast {operator : Regex → Regex} (spells : sequence.Spells u)
    (repeats : c = '*' ∨ c = '+' ∨ c = '?') (step : sequence.mapLast operator = .ok sequence') :
    sequence'.Spells (u ++ [c]) := by
  cases sequence with
  | empty => cases step
  | single _ =>
    cases step
    exact Phrase.terms_repeated spells repeats
  | several _ _ =>
    cases step
    exact Phrase.terms_repeated spells repeats
  | dotted _ => cases step

private theorem Sequence.Spells.whole (spells : sequence.Spells u)
    (ended : sequence.whole = .ok r) :
    Phrase .sequence u := by
  cases sequence with
  | empty =>
    obtain rfl : u = [] := spells
    exact .empty
  | single _ => exact .filled spells
  | several _ _ => exact .filled spells
  | dotted _ => cases ended

private theorem Group.Spells.whole (spells : group.Spells u) (whole : group.whole = .ok r) :
    Phrase .alternatives u := by
  obtain ⟨last, ended, rfl⟩ := exists_of_map_eq_ok whole
  obtain ⟨earlier, current, rfl, spelled, continues⟩ := spells
  exact continues current (.alone (spelled.whole ended))

private theorem Group.Spells.bar (spells : group.Spells u) (step : group.bar = .ok group') :
    group'.Spells (u ++ ['|']) := by
  obtain ⟨last, ended, rfl⟩ := exists_of_map_eq_ok step
  obtain ⟨earlier, current, rfl, spelled, continues⟩ := spells
  refine ⟨earlier ++ current ++ ['|'], [], by simp, rfl, fun v rest => ?_⟩
  have longer := continues _ (.bar (spelled.whole ended) rest)
  simpa using longer

private theorem Group.Spells.withSequence (spells : group.Spells u)
    (step : ∀ current, group.sequence.Spells current → sequence'.Spells (current ++ v)) :
    Group.Spells ⟨group.alternatives, sequence'⟩ (u ++ v) := by
  obtain ⟨earlier, current, rfl, spelled, continues⟩ := spells
  exact ⟨earlier, current ++ v, List.append_assoc _ _ _, step current spelled, continues⟩

namespace Reader

private theorem Spells.withSequence (spells : reader.Spells u)
    (step : ∀ current, reader.inner.sequence.Spells current → sequence'.Spells (current ++ v)) :
    (reader.withSequence sequence').Spells (u ++ v) := by
  obtain ⟨before, inside, rfl, around, inner⟩ := spells
  exact ⟨before, inside ++ v, List.append_assoc _ _ _, around, inner.withSequence step⟩

private theorem Spells.close (spells : reader.Spells u) (step : reader.close = .ok after) :
    after.Spells (u ++ [')']) := by
  obtain ⟨before, inside, rfl, around, inner⟩ := spells
  unfold Reader.close at step
  split at step
  · cases step
  · cases step
  · rename_i ended group outer whole groups
    obtain rfl := Except.ok.inj step
    rw [groups] at around
    obtain ⟨earlier, open', rfl, outer, open_spells⟩ := around
    have atom : Phrase .term ('(' :: (inside ++ [')'])) := .once (.group (inner.whole whole))
    refine ⟨earlier, open' ++ '(' :: (inside ++ [')']), by simp, outer, ?_⟩
    exact open_spells.withSequence fun current spelled => spelled.append atom

private theorem Spells.read (spells : reader.Spells u) (step : reader.read c = .ok after) :
    after.Spells (u ++ [c]) := by
  have repeats {operator : Regex → Regex} (sign : c = '*' ∨ c = '+' ∨ c = '?')
      (step : reader.postfixed operator = .ok after) : after.Spells (u ++ [c]) := by
    obtain ⟨sequence, mapped, rfl⟩ := exists_of_map_eq_ok step
    exact spells.withSequence fun current spelled => spelled.mapLast sign mapped
  have dots (sign : c = '.' ∨ c = '•')
      (step : reader.inner.sequence.dot.map reader.withSequence = .ok after) :
          after.Spells (u ++ [c]) := by
    obtain ⟨sequence, dotted, rfl⟩ := exists_of_map_eq_ok step
    exact spells.withSequence fun current spelled => spelled.dot sign dotted
  by_cases sign : c ∈ operators
  · simp only [operators, List.mem_cons, List.not_mem_nil, or_false] at sign
    rcases sign with rfl | rfl | rfl | rfl | rfl | rfl | rfl | rfl
    · obtain rfl := Except.ok.inj step
      obtain ⟨before, inside, rfl, around, inner⟩ := spells
      have opened : SpellsOpen (reader.inner :: reader.outer) (before ++ (inside ++ ['('])) :=
        ⟨before, inside, rfl, around, inner⟩
      exact ⟨_, [], by simp, opened, [], [], rfl, rfl, fun v rest => rest⟩
    · exact spells.close step
    · obtain ⟨group, bar, rfl⟩ := exists_of_map_eq_ok step
      obtain ⟨before, inside, rfl, around, inner⟩ := spells
      exact ⟨before, inside ++ ['|'], List.append_assoc _ _ _, around, inner.bar bar⟩
    · exact repeats (by decide) step
    · exact repeats (by decide) step
    · exact repeats (by decide) step
    · exact dots (by decide) step
    · exact dots (by decide) step
  · obtain ⟨atom, reads⟩ := read_plain_or_epsilon sign
    rw [reads] at step
    obtain rfl := Except.ok.inj step
    exact spells.withSequence fun current spelled => spelled.append (.once (.plain sign))

private theorem Spells.reads (spells : reader.Spells u) (reads : reader.Reads v after) :
    after.Spells (u ++ v) := by
  induction reads generalizing u with
  | nil reader => simpa using spells
  | cons step _ ih =>
    have rest := ih (spells.read step)
    rwa [List.append_assoc, List.singleton_append] at rest

private theorem spells_of_reads (reads : start.Reads u reader) : reader.Spells u := by
  have begun : start.Spells [] := ⟨[], [], rfl, rfl, [], [], rfl, rfl, fun v rest => rest⟩
  exact begun.reads reads

end Reader

end Spelling

section Completeness

/-- The characters of a phrase take the reader on, wherever such a phrase may stand. -/
def Readable : PhraseKind → List Char → Prop
  | .alternatives, u => ∀ alternatives outer, ∃ group r, group.whole = .ok r ∧
      Reader.Reads ⟨⟨alternatives, .empty⟩, outer⟩ u ⟨group, outer⟩
  | .sequence, u => ∀ alternatives outer, ∃ sequence r, sequence.whole = .ok r ∧
      Reader.Reads ⟨⟨alternatives, .empty⟩, outer⟩ u ⟨⟨alternatives, sequence⟩, outer⟩
  | .terms, u => ∀ reader : Reader, ∃ sequence : Sequence, ∃ last,
      reader.Reads u (reader.withSequence (sequence.append last))
  | .term, u => ∀ reader : Reader, ∃ term, reader.Reads u (reader.term term)
  | .atom, u => ∀ reader : Reader, ∃ atom, reader.Reads u (reader.term atom)

private theorem Sequence.exists_whole_append (sequence : Sequence) (last : Regex) :
    ∃ r, (sequence.append last).whole = .ok r ∧ (sequence.append last).dot = .ok (.dotted r) := by
  cases sequence with
  | empty => exact ⟨_, rfl, rfl⟩
  | single _ => exact ⟨_, rfl, rfl⟩
  | several _ _ => exact ⟨_, rfl, rfl⟩
  | dotted _ => exact ⟨_, rfl, rfl⟩

private theorem Group.whole_of_sequence {sequence : Sequence} {r : Regex}
    (whole : sequence.whole = .ok r) (alternatives : List Regex) :
    Group.whole ⟨alternatives, sequence⟩ = .ok (joined alternatives r) ∧
      Group.bar ⟨alternatives, sequence⟩ = .ok ⟨r :: alternatives, .empty⟩ := by
  simp only [Group.whole, Group.bar, whole]
  exact ⟨rfl, rfl⟩

namespace Reader

private theorem read_bar {reader : Reader} {group : Group} (bar : reader.inner.bar = .ok group) :
    reader.read '|' = .ok ⟨group, reader.outer⟩ := by
  show reader.inner.bar.map _ = _
  rw [bar]
  rfl

private theorem read_close {group : Group} {r : Regex} (whole : group.whole = .ok r)
    (reader : Reader) :
    read ⟨group, reader.inner :: reader.outer⟩ ')' = .ok (reader.term r) := by
  show close _ = _
  rw [close, whole]
  rfl

private theorem read_dot {reader : Reader} {sequence waiting : Sequence}
    (dotted : c = '.' ∨ c = '•') (dot : sequence.dot = .ok waiting) :
    (reader.withSequence sequence).read c = .ok (reader.withSequence waiting) := by
  rcases dotted with rfl | rfl
  all_goals
    show sequence.dot.map _ = _
    rw [dot]
    rfl

private theorem reads_dots {dots : List Char} (dotted : ∀ c ∈ dots, c = '.' ∨ c = '•')
    (reader : Reader) (r : Regex) :
    (reader.withSequence (.dotted r)).Reads dots (reader.withSequence (.dotted r)) := by
  induction dots with
  | nil => exact .nil _
  | cons c dots ih =>
    obtain ⟨here, rest⟩ := List.forall_mem_cons.mp dotted
    exact .cons (read_dot here rfl) (ih rest)

private theorem exists_reads_dots {dots : List Char} (dotted : ∀ c ∈ dots, c = '.' ∨ c = '•')
    (reader : Reader) (sequence : Sequence) (last : Regex) : ∃ waiting,
      (reader.withSequence (sequence.append last)).Reads dots (reader.withSequence waiting) := by
  cases dots with
  | nil => exact ⟨_, .nil _⟩
  | cons c dots =>
    obtain ⟨here, rest⟩ := List.forall_mem_cons.mp dotted
    obtain ⟨r, _, dot⟩ := sequence.exists_whole_append last
    exact ⟨.dotted r, .cons (read_dot here dot) (reads_dots rest reader r)⟩

private theorem exists_read_repeated (repeats : c = '*' ∨ c = '+' ∨ c = '?') (reader : Reader)
    (term : Regex) :
    ∃ term', (reader.term term).read c = .ok (reader.term term') := by
  have postfixed (operator : Regex → Regex) :
      (reader.term term).postfixed operator = .ok (reader.term (operator term)) := by
    show (Sequence.mapLast _ (reader.inner.sequence.append term)).map _ = _
    rw [Sequence.mapLast_append]
    rfl
  rcases repeats with rfl | rfl | rfl
  · exact ⟨_, postfixed _⟩
  · exact ⟨_, postfixed _⟩
  · exact ⟨_, postfixed _⟩

end Reader

private theorem Phrase.readable {kind : PhraseKind} (phrase : Phrase kind u) : Readable kind u := by
  induction phrase with
  | alone _ ih =>
    intro alternatives outer
    obtain ⟨sequence, r, whole, reads⟩ := ih alternatives outer
    exact ⟨_, _, (Group.whole_of_sequence whole alternatives).1, reads⟩
  | bar _ _ first rest =>
    intro alternatives outer
    obtain ⟨sequence, r, whole, reads⟩ := first alternatives outer
    obtain ⟨group, s, ended, more⟩ := rest (r :: alternatives) outer
    have bar : Reader.read ⟨⟨alternatives, sequence⟩, outer⟩ '|' =
        .ok ⟨⟨r :: alternatives, .empty⟩, outer⟩ :=
      Reader.read_bar (Group.whole_of_sequence whole alternatives).2
    exact ⟨group, s, ended, reads.append (.cons bar more)⟩
  | empty => exact fun alternatives outer => ⟨.empty, _, rfl, .nil _⟩
  | filled _ ih =>
    intro alternatives outer
    obtain ⟨sequence, last, reads⟩ := ih ⟨⟨alternatives, .empty⟩, outer⟩
    obtain ⟨r, whole, _⟩ := sequence.exists_whole_append last
    exact ⟨_, r, whole, reads⟩
  | first _ ih =>
    intro reader
    obtain ⟨term, reads⟩ := ih reader
    exact ⟨reader.inner.sequence, term, reads⟩
  | next _ dotted _ first second =>
    intro reader
    obtain ⟨sequence, last, reads⟩ := first reader
    obtain ⟨waiting, dots⟩ := Reader.exists_reads_dots dotted reader sequence last
    obtain ⟨term, more⟩ := second (reader.withSequence waiting)
    exact ⟨waiting, term, (reads.append dots).append more⟩
  | once _ ih => exact ih
  | repeated _ repeats ih =>
    intro reader
    obtain ⟨term, reads⟩ := ih reader
    obtain ⟨term', step⟩ := Reader.exists_read_repeated repeats reader term
    exact ⟨term', reads.append (Reader.reads_single step)⟩
  | group _ ih =>
    intro reader
    obtain ⟨group, r, whole, reads⟩ := ih [] (reader.inner :: reader.outer)
    have opened : reader.read '(' = .ok ⟨.empty, reader.inner :: reader.outer⟩ := rfl
    exact ⟨r, .cons opened (reads.append (Reader.reads_single (Reader.read_close whole reader)))⟩
  | plain other =>
    intro reader
    obtain ⟨atom, reads⟩ := Reader.read_plain_or_epsilon other
    exact ⟨atom, Reader.reads_single (reads reader)⟩

end Completeness

section Beginnings

namespace Reader

variable {reader : Reader}

private theorem exists_ending {group : Group} {r : Regex} (whole : group.whole = .ok r)
    (outer : List Group) :
    ∃ rest last s, Reads ⟨group, outer⟩ rest last ∧ last.finish = .ok s := by
  induction outer generalizing group r with
  | nil => exact ⟨[], _, r, .nil _, finish_eq_ok_iff.mpr ⟨whole, rfl⟩⟩
  | cons around outer ih =>
    obtain ⟨s, ended, _⟩ := around.sequence.exists_whole_append r
    obtain ⟨rest, last, t, reads, finished⟩ :=
      ih (Group.whole_of_sequence ended around.alternatives).1
    exact ⟨')' :: rest, last, t, .cons (read_close whole ⟨around, outer⟩) reads, finished⟩

private theorem exists_completion (reader : Reader) :
    ∃ rest last r, reader.Reads rest last ∧ last.finish = .ok r := by
  obtain ⟨s, ended, _⟩ := reader.inner.sequence.exists_whole_append (literal "a")
  obtain ⟨rest, last, t, reads, finished⟩ :=
    exists_ending (Group.whole_of_sequence ended reader.inner.alternatives).1 reader.outer
  exact ⟨'a' :: rest, last, t, .cons rfl reads, finished⟩

end Reader

theorem isExpression_iff :
    IsExpression u ↔ ∃ reader r, Reader.start.Reads u reader ∧ reader.finish = .ok r := by
  constructor
  · intro expression
    obtain ⟨group, r, whole, reads⟩ := expression.readable [] []
    exact ⟨_, r, reads, Reader.finish_eq_ok_iff.mpr ⟨whole, rfl⟩⟩
  · rintro ⟨reader, r, reads, finished⟩
    obtain ⟨whole, closed⟩ := Reader.finish_eq_ok_iff.mp finished
    obtain ⟨before, inside, rfl, around, inner⟩ := Reader.spells_of_reads reads
    rw [closed] at around
    obtain rfl : before = [] := around
    exact inner.whole whole

theorem canBegin_iff : CanBegin u ↔ ∃ reader, Reader.start.Reads u reader := by
  constructor
  · rintro ⟨rest, expression⟩
    obtain ⟨_, _, reads, _⟩ := isExpression_iff.mp expression
    obtain ⟨reader, first, _⟩ := reads.split
    exact ⟨reader, first⟩
  · rintro ⟨reader, reads⟩
    obtain ⟨rest, last, r, more, finished⟩ := reader.exists_completion
    exact ⟨rest, isExpression_iff.mpr ⟨last, r, reads.append more, finished⟩⟩

end Beginnings

end LanguageTheory.Regex

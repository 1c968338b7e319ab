import LanguageTheory.Proofs.Regex.Syntax

/-!
Where reading an expression fails. The reader stops at the first character that counts and with
which no expression can go on, or at the end of the text if there is no such character.
-/

set_option autoImplicit false
set_option relaxedAutoImplicit false

namespace LanguageTheory.Regex

/-- The characters that count in a text: blanks are left out, and `&` is another `ε`. -/
def visible (text : List Char) : List Char :=
  (text.filter fun c => !Text.isBlank c).map fun c => if c = '&' then 'ε' else c

/-- Behind this part of the text stands a character that counts and with which no expression can go
on. -/
def DeadEnd (text before : List Char) : Prop :=
  ∃ c after, text = before ++ c :: after ∧ Text.isBlank c = false ∧
  ¬ CanBegin (visible (before ++ [c]))

/-- The byte position of the first dead end, or the length of the text if there is none. -/
def FirstDeadEnd (text : List Char) (position : Nat) : Prop :=
  (∃ before, DeadEnd text before ∧
    (∀ earlier, DeadEnd text earlier → before.length ≤ earlier.length) ∧
    position = (String.ofList before).utf8ByteSize) ∨
  (∀ before, ¬ DeadEnd text before) ∧ position = (String.ofList text).utf8ByteSize

variable {u v text : List Char} {c : Char} {fault : RegexFault} {position length : Nat} {r : Regex}

section Visible

@[simp] theorem visible_append (u v : List Char) : visible (u ++ v) = visible u ++ visible v := by
  simp [visible]

private theorem visible_cons_blank (blank : Text.isBlank c = true) (text : List Char) :
    visible (c :: text) = visible text := by
  simp [visible, blank]

private theorem visible_cons (shown : Text.isBlank c = false) (text : List Char) :
    visible (c :: text) = (if c = '&' then 'ε' else c) :: visible text := by
  simp [visible, shown]

end Visible

section Stops

namespace Reader

variable {reader middle after : Reader}

private theorem Reads.unique (first : reader.Reads u middle) (second : reader.Reads u after) :
    middle = after := by
  induction first with
  | nil _ =>
    cases second
    rfl
  | cons step _ ih =>
    cases second with
    | cons step' more =>
      obtain rfl := Except.ok.inj (step.symm.trans step')
      exact ih more

private theorem read_alias (reader : Reader) (c : Char) :
    reader.read (if c = '&' then 'ε' else c) = reader.read c := by
  split
  · rename_i same
    rw [same]
    rfl
  · rfl

/-- The reader stops after so many bytes of the text: at a character that it cannot read, or at the
end. -/
def StopsAfter (reader : Reader) (text : List Char) (length : Nat) (fault : RegexFault) : Prop :=
  (∃ before c after middle, text = before ++ c :: after ∧ Text.isBlank c = false ∧
    reader.Reads (visible before) middle ∧ middle.read c = .error fault ∧
    length = (String.ofList before).utf8ByteSize) ∨
  ∃ last, reader.Reads (visible text) last ∧ last.finish = .error fault ∧
    length = (String.ofList text).utf8ByteSize

private theorem utf8ByteSize_cons (c : Char) (text : List Char) :
    (String.ofList (c :: text)).utf8ByteSize = c.utf8Size + (String.ofList text).utf8ByteSize := by
  rw [String.ofList_cons, String.utf8ByteSize_append, String.utf8ByteSize_singleton]

private theorem StopsAfter.cons (stops : middle.StopsAfter text length fault)
    (step : ∀ u last, middle.Reads (visible u) last → reader.Reads (visible (c :: u)) last) :
    reader.StopsAfter (c :: text) (c.utf8Size + length) fault := by
  rcases stops with ⟨before, d, after, stuck, rfl, shown, reads, refused, rfl⟩ |
    ⟨last, reads, refused, rfl⟩
  · exact Or.inl ⟨c :: before, d, after, stuck, rfl, shown, step before stuck reads, refused,
      (utf8ByteSize_cons c before).symm⟩
  · exact Or.inr ⟨last, step text last reads, refused, (utf8ByteSize_cons c text).symm⟩

private theorem reads_blank (blank : Text.isBlank c = true)
    (reads : reader.Reads (visible u) after) :
    reader.Reads (visible (c :: u)) after := by
  rwa [visible_cons_blank blank]

private theorem reads_visible (shown : Text.isBlank c = false) (step : reader.read c = .ok middle)
    (reads : middle.Reads (visible u) after) : reader.Reads (visible (c :: u)) after := by
  rw [visible_cons shown]
  exact .cons ((read_alias reader c).trans step) reads

private theorem readAll_cases (reader : Reader) (position : Nat) (text : List Char) :
    (∃ last r, reader.Reads (visible text) last ∧ last.finish = .ok r ∧
      reader.readAll position text = .ok r) ∨
    ∃ length fault, reader.StopsAfter text length fault ∧
      reader.readAll position text = .error (.regexSyntax (position + length) fault) := by
  induction text generalizing reader position with
  | nil =>
    unfold readAll
    cases finished : reader.finish with
    | ok r => exact Or.inl ⟨reader, r, .nil reader, finished, rfl⟩
    | error fault => exact Or.inr ⟨0, fault, Or.inr ⟨reader, .nil reader, finished, rfl⟩, rfl⟩
  | cons c rest ih =>
    unfold readAll
    by_cases blank : Text.isBlank c = true
    · rw [if_pos blank]
      rcases ih reader (position + c.utf8Size) with
        ⟨last, r, reads, finished, result⟩ | ⟨length, fault, stops, result⟩
      · exact Or.inl ⟨last, r, reads_blank blank reads, finished, result⟩
      · refine Or.inr ⟨c.utf8Size + length, fault, stops.cons fun u last => reads_blank blank, ?_⟩
        rw [result, Nat.add_assoc]
    · have shown := Bool.eq_false_iff.mpr blank
      rw [if_neg blank]
      cases step : reader.read c with
      | error fault =>
        exact Or.inr ⟨0, fault, Or.inl ⟨[], c, rest, reader, rfl, shown, .nil reader, step, rfl⟩,
          rfl⟩
      | ok middle =>
        rcases ih middle (position + c.utf8Size) with
          ⟨last, r, reads, finished, result⟩ | ⟨length, fault, stops, result⟩
        · exact Or.inl ⟨last, r, reads_visible shown step reads, finished, result⟩
        · refine Or.inr ⟨c.utf8Size + length, fault,
            stops.cons fun u last => reads_visible shown step, ?_⟩
          rw [← Nat.add_assoc]
          exact result

private theorem not_reads_of_refused {before : List Char}
    (reads : reader.Reads (visible before) middle) (shown : Text.isBlank c = false)
    (refused : middle.read c = .error fault) (rest : List Char) :
    ¬ reader.Reads (visible (before ++ c :: rest)) after := by
  intro longer
  rw [visible_append, visible_cons shown] at longer
  obtain ⟨middle', first, second⟩ := longer.split
  obtain rfl := reads.unique first
  cases second with
  | cons step _ =>
    rw [read_alias, refused] at step
    cases step

private theorem StopsAfter.not_finished (stops : reader.StopsAfter text length fault)
    (reads : reader.Reads (visible text) after) : after.finish ≠ .ok r := by
  intro finished
  rcases stops with ⟨before, c, rest, middle, rfl, shown, first, refused, _⟩ |
    ⟨last, first, refused, _⟩
  · exact not_reads_of_refused first shown refused rest reads
  · obtain rfl := reads.unique first
    cases finished.symm.trans refused

/-- What the reader can read is no dead end, so the place where it stops is the first one. -/
private theorem StopsAfter.firstDeadEnd (stops : start.StopsAfter text length fault) :
    FirstDeadEnd text length := by
  have begins {before earlier : List Char} {d : Char} {reader : Reader}
      (reads : start.Reads (visible before) reader) (part : earlier ++ [d] <+: before) :
      CanBegin (visible (earlier ++ [d])) := by
    obtain ⟨rest, rfl⟩ := part
    rw [visible_append] at reads
    exact canBegin_iff.mpr ⟨_, reads.split.choose_spec.1⟩
  rcases stops with ⟨before, c, after, middle, rfl, shown, reads, refused, rfl⟩ |
    ⟨last, reads, _, rfl⟩
  · refine Or.inl ⟨before, ⟨c, after, rfl, shown, fun possible => ?_⟩, ?_, rfl⟩
    · obtain ⟨reader, longer⟩ := canBegin_iff.mp possible
      exact not_reads_of_refused reads shown refused [] longer
    · rintro earlier ⟨d, others, same, _, impossible⟩
      refine Nat.le_of_not_lt fun shorter => impossible (begins reads ?_)
      have parts : earlier ++ [d] <+: before ++ c :: after := ⟨others, by rw [same]; simp⟩
      refine List.prefix_of_prefix_length_le parts (List.prefix_append _ _) ?_
      rw [List.length_append, List.length_singleton]
      omega
  · refine Or.inr ⟨?_, rfl⟩
    rintro earlier ⟨d, others, rfl, _, impossible⟩
    exact impossible (begins reads ⟨others, by simp⟩)

end Reader

end Stops

/-- A text is read exactly if its visible characters make up an expression. If not, the error names
the first position at which no expression can go on. -/
theorem parse_exact (text : String) :
    ((∃ r, parse text = .ok r) ↔ IsExpression (visible text.toList)) ∧
    ∀ e, parse text = .error e →
      ∃ position fault, e = .regexSyntax position fault ∧ FirstDeadEnd text.toList position := by
  rcases Reader.start.readAll_cases 0 text.toList with
    ⟨last, r, reads, finished, result⟩ | ⟨length, fault, stops, result⟩
  · refine ⟨⟨fun _ => isExpression_iff.mpr ⟨last, r, reads, finished⟩, fun _ => ⟨r, result⟩⟩, ?_⟩
    intro e failed
    cases result.symm.trans failed
  · refine ⟨⟨?_, fun expression => ?_⟩, ?_⟩
    · rintro ⟨r, parsed⟩
      cases result.symm.trans parsed
    · obtain ⟨reader, r, reads, finished⟩ := isExpression_iff.mp expression
      exact absurd finished (stops.not_finished reads)
    · rintro e failed
      obtain rfl := Except.error.inj (result.symm.trans failed)
      exact ⟨length, fault, by rw [Nat.zero_add], stops.firstDeadEnd⟩

/-- After dots another term has to follow, so the parenthesis is a dead end; it stands behind eight
bytes. -/
theorem parse_exact_dangling_dots :
    parse "é |(a..)" = .error (.regexSyntax 8 .noRightOperand) ∧ FirstDeadEnd "é |(a..)".toList 8 ∧
      (∃ r, parse "é |(a..b)" = .ok r) ∧ IsExpression (visible "é |(a..b)".toList) := by
  have failed : parse "é |(a..)" = .error (.regexSyntax 8 .noRightOperand) := rfl
  have parsed : ∃ r, parse "é |(a..b)" = .ok r := ⟨_, rfl⟩
  obtain ⟨position, fault, same, dead⟩ := (parse_exact "é |(a..)").2 _ failed
  obtain ⟨rfl, rfl⟩ := Error.regexSyntax.inj same
  exact ⟨failed, dead, parsed, (parse_exact "é |(a..b)").1.mp parsed⟩

end LanguageTheory.Regex

import LanguageTheory.Proofs.Regex.Grouping
import LanguageTheory.Proofs.Regex.ParsedLiterals

/-!
Reading expressions that were printed. The reader takes a text in parts (`Reader.Passes`). An
operand of a concatenation extends the sequence that is being read term by term, so concatenations
come out grouped to the left; the alternatives of a group are joined when it ends, from the right.
An operand in parentheses is one term. So what is read is the printed expression but for its
grouping.
-/

set_option autoImplicit false
set_option relaxedAutoImplicit false

namespace LanguageTheory.Regex

variable {r s t : Regex}

section Chains

/-- The sequence that goes on with the terms of a concatenation that is grouped to the left. -/
def Sequence.extend (sequence : Sequence) : Regex → Sequence
  | concat before last => (sequence.extend before).append last
  | term => sequence.append term

private theorem Sequence.extend_of_single {sequence : Sequence} (single : t.strength ≠ 1) :
    sequence.extend t = sequence.append t := by
  cases t with
  | concat _ _ => exact absurd rfl single
  | epsilon => rfl
  | literal _ => rfl
  | union _ _ => rfl
  | star _ => rfl

private theorem Sequence.extend_appendLeft (sequence : Sequence) (s t : Regex) :
    sequence.extend (appendLeft s t) = (sequence.extend s).extend t := by
  induction t with
  | concat first last ih _ => exact congrArg (append last) ih
  | epsilon => rfl
  | literal _ => rfl
  | union _ _ => rfl
  | star _ => rfl

private theorem Sequence.append_ne_empty (sequence : Sequence) (t : Regex) :
    sequence.append t ≠ empty := by
  cases sequence with
  | empty => exact Sequence.noConfusion
  | single _ => exact Sequence.noConfusion
  | several _ _ => exact Sequence.noConfusion
  | dotted _ => exact Sequence.noConfusion

private theorem Sequence.whole_append {sequence : Sequence} (filled : sequence ≠ empty)
    (whole : sequence.whole = .ok s) : (sequence.append t).whole = .ok (concat s t) := by
  cases sequence with
  | empty => exact absurd rfl filled
  | single _ =>
    cases whole
    rfl
  | several _ _ =>
    cases whole
    rfl
  | dotted _ => cases whole

private theorem Sequence.whole_extend_empty (t : Regex) :
    empty.extend t ≠ empty ∧ (empty.extend t).whole = .ok t := by
  induction t with
  | concat first last ih _ => exact ⟨append_ne_empty _ last, whole_append ih.1 ih.2⟩
  | epsilon => exact ⟨append_ne_empty _ _, rfl⟩
  | literal _ => exact ⟨append_ne_empty _ _, rfl⟩
  | union _ _ => exact ⟨append_ne_empty _ _, rfl⟩
  | star _ => exact ⟨append_ne_empty _ _, rfl⟩

theorem Sequence.mapLast_append (sequence : Sequence) (operator : Regex → Regex) (t : Regex) :
    (sequence.append t).mapLast operator = .ok (sequence.append (operator t)) := by
  cases sequence with
  | empty => rfl
  | single _ => rfl
  | several _ _ => rfl
  | dotted _ => rfl

/-- The group in which a union that is grouped to the right has been read behind other
alternatives. -/
def Group.reading (alternatives : List Regex) : Regex → Group
  | union first rest => reading (first :: alternatives) rest
  | last => ⟨alternatives, Sequence.empty.extend last⟩

private theorem Group.reading_of_single {alternatives : List Regex} (single : t.strength ≠ 0) :
    reading alternatives t = ⟨alternatives, Sequence.empty.extend t⟩ := by
  cases t with
  | union _ _ => exact absurd rfl single
  | epsilon => rfl
  | literal _ => rfl
  | concat _ _ => rfl
  | star _ => rfl

private theorem Group.bar_reading_of_single (alternatives : List Regex) (single : s.strength ≠ 0) :
    (reading alternatives s).bar = .ok ⟨s :: alternatives, .empty⟩ := by
  rw [reading_of_single single, bar, (Sequence.whole_extend_empty s).2]
  rfl

private theorem Group.bar_reading (alternatives : List Regex) (s : Regex) :
    ∃ longer, (reading alternatives s).bar = .ok ⟨longer, .empty⟩ ∧
      ∀ t, reading longer t = reading alternatives (appendRight s t) := by
  induction s generalizing alternatives with
  | union first rest _ ih => exact ih (first :: alternatives)
  | epsilon => exact ⟨_, bar_reading_of_single alternatives (by decide), fun _ => rfl⟩
  | literal _ => exact ⟨_, bar_reading_of_single alternatives (by simp [strength]), fun _ => rfl⟩
  | concat _ _ => exact ⟨_, bar_reading_of_single alternatives (by simp [strength]), fun _ => rfl⟩
  | star _ => exact ⟨_, bar_reading_of_single alternatives (by simp [strength]), fun _ => rfl⟩

private theorem Group.whole_reading_of_single (alternatives : List Regex)
    (single : t.strength ≠ 0) :
    (reading alternatives t).whole = .ok (joined alternatives t) := by
  rw [reading_of_single single, whole, (Sequence.whole_extend_empty t).2]
  rfl

private theorem Group.whole_reading (alternatives : List Regex) (t : Regex) :
    (reading alternatives t).whole = .ok (joined alternatives t) := by
  induction t generalizing alternatives with
  | union first rest _ ih => exact ih (first :: alternatives)
  | epsilon => exact whole_reading_of_single alternatives (by decide)
  | literal _ => exact whole_reading_of_single alternatives (by simp [strength])
  | concat _ _ => exact whole_reading_of_single alternatives (by simp [strength])
  | star _ => exact whole_reading_of_single alternatives (by simp [strength])

end Chains

section Reading

namespace Reader

variable {reader middle after : Reader} {first second : List Char}

/-- The characters take the reader to the second one, whatever follows them. -/
def Passes (reader : Reader) (chars : List Char) (after : Reader) : Prop :=
  ∀ position rest, ∃ next, reader.readAll position (chars ++ rest) = after.readAll next rest

private theorem Passes.append (begins : reader.Passes first middle)
    (ends : middle.Passes second after) :
    reader.Passes (first ++ second) after := by
  intro position rest
  obtain ⟨next, same⟩ := begins position (second ++ rest)
  obtain ⟨last, same'⟩ := ends next rest
  exact ⟨last, by rw [List.append_assoc, same, same']⟩

private theorem passes_single {c : Char} (visible : Text.isBlank c = false)
    (step : reader.read c = .ok after) : reader.Passes [c] after := by
  intro position rest
  refine ⟨position + c.utf8Size, ?_⟩
  rw [List.singleton_append, readAll, if_neg (Bool.eq_false_iff.mp visible), step]

private theorem Passes.readAll_eq {position : Nat} (passes : reader.Passes first after)
    (finished : after.finish = .ok r) : reader.readAll position first = .ok r := by
  obtain ⟨next, same⟩ := passes position []
  rw [List.append_nil] at same
  rw [same]
  exact readAll_nil.mpr finished

def chain (reader : Reader) (r : Regex) : Reader :=
  reader.withSequence (reader.inner.sequence.extend r)

private theorem chain_of_single (single : r.strength ≠ 1) : reader.chain r = reader.term r := by
  rw [chain, Sequence.extend_of_single single]
  rfl

private theorem passes_parenthesized
    (inside : Passes ⟨.empty, reader.inner :: reader.outer⟩ s.text.toList
      ⟨Group.reading [] r, reader.inner :: reader.outer⟩) :
    reader.Passes (parenthesized s.text).toList (reader.term r) := by
  have closed : read ⟨Group.reading [] r, reader.inner :: reader.outer⟩ ')' =
      .ok (reader.term r) := by
    show close _ = _
    rw [close, Group.whole_reading]
    rfl
  have opens : reader.Passes ['('] ⟨.empty, reader.inner :: reader.outer⟩ :=
    passes_single (by decide) rfl
  have whole := (opens.append inside).append (passes_single (by decide) closed)
  simpa [parenthesized] using whole

end Reader

/-- The text of the expression is read as the regrouped expression: as the terms of a sequence that
goes on, if it needs no parentheses there, and as the beginning of an alternative. -/
structure ReadsBack (r : Regex) : Prop where
  chained : r.strength ≠ 0 → ∀ reader : Reader, reader.Passes r.text.toList
    (reader.chain r.regrouped)
  begun : ∀ alternatives outer, Reader.Passes ⟨⟨alternatives, .empty⟩, outer⟩ r.text.toList
    ⟨Group.reading alternatives r.regrouped, outer⟩

private theorem ReadsBack.of_chained (strong : r.strength ≠ 0)
    (chained : ∀ reader : Reader, reader.Passes r.text.toList (reader.chain r.regrouped)) :
    r.ReadsBack := by
  refine ⟨fun _ => chained, fun alternatives outer => ?_⟩
  rw [Group.reading_of_single (strength_regrouped r ▸ strong)]
  exact chained ⟨⟨alternatives, .empty⟩, outer⟩

private theorem ReadsBack.of_term (strong : r.strength = 2)
    (single : ∀ reader : Reader, reader.Passes r.text.toList (reader.term r.regrouped)) :
    r.ReadsBack := by
  refine of_chained (by omega) fun reader => ?_
  rw [Reader.chain_of_single (by rw [strength_regrouped]; omega)]
  exact single reader

private theorem ReadsBack.passes_operand (back : r.ReadsBack) (reader : Reader) :
    reader.Passes (r.operandText 1).toList (reader.chain r.regrouped) := by
  by_cases weak : r.strength < 1
  · rw [operandText, if_pos weak, Reader.chain_of_single (by rw [strength_regrouped]; omega)]
    exact Reader.passes_parenthesized (back.begun [] _)
  · rw [operandText, if_neg weak]
    exact back.chained (by omega) reader

private theorem ReadsBack.passes_repeated (back : r.ReadsBack) (reader : Reader) :
    reader.Passes (r.operandText 2).toList (reader.term r.regrouped) := by
  by_cases weak : r.strength < 2
  · rw [operandText, if_pos weak]
    exact Reader.passes_parenthesized (back.begun [] _)
  · rw [operandText, if_neg weak, ← Reader.chain_of_single (by rw [strength_regrouped]; omega)]
    exact back.chained (by omega) reader

private theorem ReadsBack.concat (first : s.ReadsBack) (second : t.ReadsBack) :
    (concat s t).ReadsBack := by
  refine of_chained (by simp [strength]) fun reader => ?_
  have both := (first.passes_operand reader).append
    (second.passes_operand (reader.chain s.regrouped))
  have chained : (reader.chain s.regrouped).chain t.regrouped =
      reader.chain (Regex.concat s t).regrouped := by
    rw [regrouped, Reader.chain, Reader.chain, Reader.chain, Sequence.extend_appendLeft]
    rfl
  rw [text_concat, String.toList_append, ← chained]
  exact both

private theorem ReadsBack.union (first : s.ReadsBack) (second : t.ReadsBack) :
    (union s t).ReadsBack := by
  refine ⟨fun strong => absurd rfl strong, fun alternatives outer => ?_⟩
  obtain ⟨longer, bar, reading⟩ := Group.bar_reading alternatives s.regrouped
  have step : Reader.read ⟨Group.reading alternatives s.regrouped, outer⟩ '|' =
      .ok ⟨⟨longer, .empty⟩, outer⟩ := by
    show (Group.bar _).map _ = _
    rw [bar]
    rfl
  have both :=
    ((first.begun alternatives outer).append (Reader.passes_single (by decide) step)).append
    (second.begun longer outer)
  rw [regrouped, ← reading]
  simpa [text] using both

private theorem ReadsBack.star (inner : r.ReadsBack) : (star r).ReadsBack := by
  refine of_term rfl fun reader => ?_
  have step : (reader.term r.regrouped).read '*' = .ok (reader.term (Regex.star r.regrouped)) := by
    show (Sequence.mapLast _ (reader.inner.sequence.append r.regrouped)).map _ = _
    rw [Sequence.mapLast_append]
    rfl
  have both := (inner.passes_repeated reader).append (Reader.passes_single (by decide) step)
  rw [text_star, String.toList_append]
  exact both

private theorem readsBack
    (plain : ∀ symbol ∈ r.literals, ∃ c, IsPlain c ∧ symbol = String.ofList [c]) :
    r.ReadsBack := by
  induction r with
  | epsilon => exact .of_term rfl fun reader => Reader.passes_single (by decide) rfl
  | literal symbol =>
    obtain ⟨c, alone, rfl⟩ := plain symbol (List.mem_singleton_self symbol)
    refine .of_term rfl fun reader => ?_
    rw [text, String.toList_ofList]
    exact Reader.passes_single alone.1 (Reader.read_plain alone reader)
  | concat s t first second =>
    obtain ⟨left, right⟩ := List.forall_mem_append.mp plain
    exact .concat (first left) (second right)
  | union s t first second =>
    obtain ⟨left, right⟩ := List.forall_mem_append.mp plain
    exact .union (first left) (second right)
  | star r inner => exact .star (inner plain)

/-- A text that was printed is read as the one expression that is grouped to the left in
concatenations and to the right in unions and differs from the printed one in grouping alone. It
means the same and is printed alike. -/
theorem parse_text_exact
    (given : (∃ text, parse text = .ok r) ∨ ∀ symbol ∈ r.literals, ParsedLiteral symbol) :
    parse r.text = .ok r.regrouped ∧ (∀ s, s = r.regrouped ↔ s.Grouped ∧ r.Regroups s) ∧
      (∀ word, r.regrouped.Matches word ↔ r.Matches word) ∧ r.regrouped.text = r.text := by
  have producible : ∀ symbol ∈ r.literals, ParsedLiteral symbol := by
    rcases given with ⟨text, parsed⟩ | producible
    · exact fun symbol mem => ⟨text, r, parsed, mem⟩
    · exact producible
  have back := readsBack fun symbol mem => parsedLiteral_iff.mp (producible symbol mem)
  have same := regroups_regrouped r
  refine ⟨?_, fun s => eq_regrouped_iff, fun word => same.symm.matches_iff, same.text_eq.symm⟩
  exact (back.begun [] []).readAll_eq (Reader.finish_eq_ok_iff.mpr ⟨Group.whole_reading [] _, rfl⟩)

/-- Parentheses, a dot, the second spelling of `ε` and a plus sign are not printed again. -/
theorem parse_text_exact_plus_sign :
    let a := literal "a"
    let b := literal "b"
    let c := literal "c"
    let d := literal "d"
    let r := union (union a b) (concat c (concat (concat d epsilon) (star (concat d epsilon))))
    parse "(a|b)|c.(d&)+" = .ok r ∧ r.text = "a|b|cdε(dε)*" ∧ parse "a|b|cdε(dε)*" =
      .ok (union a (union b (concat (concat (concat c d) epsilon) (star (concat d epsilon))))) := by
  intro a b c d r
  have parsed : parse "(a|b)|c.(d&)+" = .ok r := rfl
  have printed : r.text = "a|b|cdε(dε)*" := by decide
  have back := (parse_text_exact (Or.inl ⟨_, parsed⟩)).1
  rw [printed] at back
  exact ⟨parsed, printed, back⟩

end Reading

end LanguageTheory.Regex

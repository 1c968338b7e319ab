import LanguageTheory.Regex.Reader

/-!
The literals of expressions that are read. Each character brings in at most one literal, that of the
character itself, and only if it is neither blank nor a sign; so a text can have a symbol as a
literal exactly if the symbol is one such character (`parsedLiteral_iff`).
-/

set_option autoImplicit false
set_option relaxedAutoImplicit false

namespace LanguageTheory.Regex

variable {r : Regex} {symbol : Symbol}

def signs : List Char := ['(', ')', '|', '*', '+', '?', '.', '•', 'ε', '&']

def IsPlain (c : Char) : Prop := Text.isBlank c = false ∧ c ∉ signs

theorem Reader.read_plain {c : Char} (plain : IsPlain c) (reader : Reader) :
    reader.read c = .ok (reader.term (literal (String.ofList [c]))) := by
  have other := plain.2
  unfold read
  split
  all_goals first | rfl | exact absurd (by decide) other

def Sequence.literals : Sequence → List Symbol
  | empty => []
  | single last => last.literals
  | several before last => before.literals ++ last.literals
  | dotted before => before.literals

def Group.literals (group : Group) : List Symbol :=
  group.alternatives.flatMap Regex.literals ++ group.sequence.literals

def Reader.literals (reader : Reader) : List Symbol :=
  (reader.inner :: reader.outer).flatMap Group.literals

private theorem Sequence.literals_append (sequence : Sequence) (r : Regex) :
    (sequence.append r).literals = sequence.literals ++ r.literals := by
  cases sequence with
  | empty => rfl
  | single _ => rfl
  | several _ _ => rfl
  | dotted _ => rfl

private theorem Sequence.literals_whole {sequence : Sequence} (whole : sequence.whole = .ok r) :
    r.literals = sequence.literals := by
  cases sequence with
  | empty => cases whole; rfl
  | single _ => cases whole; rfl
  | several _ _ => cases whole; rfl
  | dotted _ => cases whole

private theorem Sequence.literals_dot {sequence after : Sequence} (dot : sequence.dot = .ok after) :
    after.literals = sequence.literals := by
  cases sequence with
  | empty => cases dot
  | single _ => cases dot; rfl
  | several _ _ => cases dot; rfl
  | dotted _ => cases dot; rfl

private theorem Sequence.literals_mapLast {sequence after : Sequence} {operator : Regex → Regex}
    (same : ∀ r, ∀ symbol ∈ (operator r).literals, symbol ∈ r.literals)
    (mapped : sequence.mapLast operator = .ok after) :
    ∀ symbol ∈ after.literals, symbol ∈ sequence.literals := by
  cases sequence with
  | empty => cases mapped
  | single last => cases mapped; exact same last
  | several before last =>
    cases mapped
    simp only [literals, List.mem_append]
    exact fun symbol => Or.imp_right (same last symbol)
  | dotted _ => cases mapped

/-- The union of the alternatives of a group, the last one first, and the expression that ends
it. -/
def joined (alternatives : List Regex) (last : Regex) : Regex :=
  alternatives.foldl (fun joined alternative => union alternative joined) last

private theorem mem_literals_joined {alternatives : List Regex} :
    symbol ∈ (joined alternatives r).literals ↔
      symbol ∈ alternatives.flatMap literals ∨ symbol ∈ r.literals := by
  induction alternatives generalizing r with
  | nil => simp [joined]
  | cons alternative rest ih =>
    refine ih.trans ?_
    rw [List.flatMap_cons, literals, List.mem_append, List.mem_append, or_assoc, or_left_comm]

theorem exists_of_map_eq_ok {ε α β : Type} {x : Except ε α} {f : α → β} {b : β}
    (mapped : x.map f = .ok b) : ∃ a, x = .ok a ∧ f a = b := by
  cases x with
  | error _ => cases mapped
  | ok a => exact ⟨a, rfl, Except.ok.inj mapped⟩

private theorem Group.literals_whole {group : Group} (whole : group.whole = .ok r) :
    ∀ symbol ∈ r.literals, symbol ∈ group.literals := by
  obtain ⟨last, ended, rfl⟩ := exists_of_map_eq_ok whole
  intro symbol mem
  change symbol ∈ (joined group.alternatives last).literals at mem
  rwa [mem_literals_joined, Sequence.literals_whole ended, ← List.mem_append] at mem

private theorem Group.literals_bar {group after : Group} (bar : group.bar = .ok after) :
    ∀ symbol ∈ after.literals, symbol ∈ group.literals := by
  obtain ⟨last, ended, rfl⟩ := exists_of_map_eq_ok bar
  intro symbol mem
  simp only [literals, Sequence.literals, List.flatMap_cons, Sequence.literals_whole ended,
    List.append_nil, List.mem_append] at mem ⊢
  exact mem.symm

private theorem Reader.mem_literals {reader : Reader} : symbol ∈ reader.literals ↔
    symbol ∈ reader.inner.literals ∨ symbol ∈ reader.outer.flatMap Group.literals := by
  rw [literals, List.flatMap_cons, List.mem_append]

private theorem Reader.mem_literals_term {reader : Reader} {r : Regex} :
    symbol ∈ (reader.term r).literals ↔ symbol ∈ reader.literals ∨ symbol ∈ r.literals := by
  simp only [mem_literals, term, withSequence, Group.literals, Sequence.literals_append,
    List.mem_append]
  rw [or_assoc, or_assoc, or_assoc, or_assoc, or_comm (a := symbol ∈ r.literals)]

private theorem Reader.literals_withSequence {reader : Reader} {sequence : Sequence}
    (old : ∀ symbol ∈ sequence.literals, symbol ∈ reader.inner.sequence.literals) :
    ∀ symbol ∈ (reader.withSequence sequence).literals, symbol ∈ reader.literals := by
  intro symbol
  simp only [mem_literals, withSequence, Group.literals, List.mem_append]
  exact Or.imp_left (Or.imp_right (old symbol))

private theorem Reader.literals_postfixed {reader after : Reader} {operator : Regex → Regex}
    (same : ∀ r, ∀ symbol ∈ (operator r).literals, symbol ∈ r.literals)
    (step : reader.postfixed operator = .ok after) :
    ∀ symbol ∈ after.literals, symbol ∈ reader.literals := by
  obtain ⟨sequence, mapped, rfl⟩ := exists_of_map_eq_ok step
  exact literals_withSequence (Sequence.literals_mapLast same mapped)

private theorem Reader.literals_dot {reader after : Reader}
    (step : reader.inner.sequence.dot.map reader.withSequence = .ok after) :
    ∀ symbol ∈ after.literals, symbol ∈ reader.literals := by
  obtain ⟨sequence, dotted, rfl⟩ := exists_of_map_eq_ok step
  refine literals_withSequence fun symbol mem => ?_
  rwa [Sequence.literals_dot dotted] at mem

private theorem Reader.literals_bar {reader after : Reader}
    (step : (reader.inner.bar.map fun inner => { reader with inner := inner }) = .ok after) :
    ∀ symbol ∈ after.literals, symbol ∈ reader.literals := by
  obtain ⟨group, ended, rfl⟩ := exists_of_map_eq_ok step
  intro symbol
  simp only [mem_literals]
  exact Or.imp_left (Group.literals_bar ended symbol)

private theorem Reader.literals_close {reader after : Reader} (step : reader.close = .ok after) :
    ∀ symbol ∈ after.literals, symbol ∈ reader.literals := by
  unfold close at step
  split at step
  · cases step
  · cases step
  · rename_i whole around outer inner groups
    obtain rfl := Except.ok.inj step
    intro symbol
    simp only [mem_literals, groups, List.flatMap_cons, Group.literals, Sequence.literals_append,
      List.mem_append]
    rintro ((old | old | closed) | old)
    · exact Or.inr (Or.inl (Or.inl old))
    · exact Or.inr (Or.inl (Or.inr old))
    · exact Or.inl (List.mem_append.mp (Group.literals_whole inner symbol closed))
    · exact Or.inr (Or.inr old)

private theorem Reader.literals_read {reader after : Reader} {c : Char}
    (visible : Text.isBlank c = false) (step : reader.read c = .ok after) :
    ∀ symbol ∈ after.literals,
      symbol ∈ reader.literals ∨ IsPlain c ∧ symbol = String.ofList [c] := by
  by_cases sign : c ∈ signs
  · refine fun symbol mem => Or.inl ?_
    have empty (term : reader.term epsilon = after) : symbol ∈ reader.literals :=
      (mem_literals_term.mp (term ▸ mem)).resolve_right List.not_mem_nil
    simp only [signs, List.mem_cons, List.not_mem_nil, or_false] at sign
    rcases sign with rfl | rfl | rfl | rfl | rfl | rfl | rfl | rfl | rfl | rfl
    · obtain rfl := Except.ok.inj step
      exact (mem_literals.mp mem).resolve_left List.not_mem_nil
    · exact literals_close step symbol mem
    · exact literals_bar step symbol mem
    · have step : reader.postfixed star = .ok after := step
      exact literals_postfixed (by simp [Regex.literals]) step symbol mem
    · exact literals_postfixed (by simp [Regex.literals]) step symbol mem
    · exact literals_postfixed (by simp [Regex.literals]) step symbol mem
    · exact literals_dot step symbol mem
    · exact literals_dot step symbol mem
    · exact empty (Except.ok.inj step)
    · exact empty (Except.ok.inj step)
  · have plain : IsPlain c := ⟨visible, sign⟩
    rw [read_plain plain] at step
    obtain rfl := Except.ok.inj step
    intro symbol mem
    refine (mem_literals_term.mp mem).imp_right fun new => ⟨plain, List.mem_singleton.mp new⟩

theorem Reader.finish_eq_ok_iff {reader : Reader} :
    reader.finish = .ok r ↔ reader.inner.whole = .ok r ∧ reader.outer = [] := by
  unfold finish
  split
  · rename_i failed
    simp [failed]
  · rename_i whole groups
    simp [whole, groups]
  · rename_i groups
    simp [groups]

theorem Reader.readAll_nil {reader : Reader} {position : Nat} :
    reader.readAll position [] = .ok r ↔ reader.finish = .ok r := by
  unfold readAll
  cases reader.finish with
  | error _ =>
    constructor
    · intro failed
      cases failed
    · intro failed
      cases failed
  | ok _ =>
    constructor
    · intro same
      cases same
      rfl
    · intro same
      cases same
      rfl

private theorem Reader.literals_readAll {reader : Reader} {position : Nat} {chars : List Char}
    (result : reader.readAll position chars = .ok r) : ∀ symbol ∈ r.literals,
      symbol ∈ reader.literals ∨ ∃ c, IsPlain c ∧ symbol = String.ofList [c] := by
  induction chars generalizing reader position with
  | nil =>
    obtain ⟨whole, _⟩ := finish_eq_ok_iff.mp (readAll_nil.mp result)
    exact fun symbol mem => Or.inl
      (mem_literals.mpr (Or.inl (Group.literals_whole whole symbol mem)))
  | cons c rest ih =>
    unfold readAll at result
    split at result
    · exact ih result
    · rename_i visible
      split at result
      · cases result
      · rename_i after step
        intro symbol mem
        rcases ih result symbol mem with old | new
        · exact (literals_read (Bool.eq_false_iff.mpr visible) step symbol old).imp_right
            fun new => ⟨c, new⟩
        · exact Or.inr new

/-- Some text is read as an expression with this literal. -/
def ParsedLiteral (symbol : Symbol) : Prop := ∃ text r, parse text = .ok r ∧ symbol ∈ r.literals

theorem parsedLiteral_iff : ParsedLiteral symbol ↔ ∃ c, IsPlain c ∧ symbol = String.ofList [c] := by
  constructor
  · rintro ⟨text, r, parsed, mem⟩
    exact (Reader.literals_readAll parsed symbol mem).resolve_left List.not_mem_nil
  · rintro ⟨c, plain, rfl⟩
    refine ⟨String.ofList [c], literal (String.ofList [c]), ?_, List.mem_singleton_self _⟩
    have visible : ¬ Text.isBlank c = true := Bool.eq_false_iff.mp plain.1
    rw [parse, String.toList_ofList, Reader.readAll, if_neg visible, Reader.read_plain plain]
    rfl

end LanguageTheory.Regex

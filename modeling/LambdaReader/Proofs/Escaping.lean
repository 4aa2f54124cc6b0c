import Mathlib.Algebra.Ring.Parity
import Mathlib.Data.List.DropRight
import LambdaReader.Proofs.Spelling

/-!
# `Proofs.Escaping` — delimited texts and the parity of escape marks

Whether a character is escaped can be told from what stands before it: the escape marks right before it
are odd in number. By this measure, which knows nothing of a reader's state, a delimited text goes up to
the first quote that is not escaped, and it stands for what is in it without the marks that are not
escaped themselves. What has been escaped for a quote is read back in front of anything.

## Main result
- `Scanner.readEscaped_decodes`: what is read for any quote but the escape mark, with and without a
  closing quote.
-/

namespace LambdaReader

open Lexicon Lexeme

namespace Lexeme

/-! ## Parity -/

/-- What stands behind these characters is escaped. -/
def Escapes (front : List Char) : Prop := Odd (front.rtakeWhile (· = escapeMark)).length

instance : DecidablePred Escapes := fun front =>
  inferInstanceAs (Decidable (Odd (front.rtakeWhile (· = escapeMark)).length))

theorem not_escapes_nil : ¬ Escapes [] := by decide

/-- Behind an escape mark a character is escaped if the mark is not. -/
theorem escapes_concat_mark (front : List Char) :
    Escapes (front ++ [escapeMark]) ↔ ¬ Escapes front := by
  rw [Escapes, List.rtakeWhile_concat_pos _ front escapeMark (by simp), List.length_append,
    List.length_singleton, Nat.odd_add_one, Escapes]

theorem not_escapes_concat {c : Char} (hc : c ≠ escapeMark) (front : List Char) :
    ¬ Escapes (front ++ [c]) := by
  rw [Escapes, List.rtakeWhile_concat_neg _ _ _ (by simpa using hc)]
  exact Nat.not_odd_zero

/-- What does not escape does not matter to what stands behind it. -/
theorem escapes_append {before : List Char} (h : ¬ Escapes before) (front : List Char) :
    Escapes (before ++ front) ↔ Escapes front := by
  induction front using List.reverseRecOn with
  | nil => simpa [not_escapes_nil] using h
  | append_singleton front c ih =>
    rw [← List.append_assoc]
    by_cases hc : c = escapeMark
    · subst hc
      rw [escapes_concat_mark, escapes_concat_mark, ih]
    · simp only [not_escapes_concat hc]

/-- An escape mark and the character behind it do not escape a third one. -/
theorem not_escapes_pair (c : Char) : ¬ Escapes [escapeMark, c] := by
  have hmark : Escapes [escapeMark] := by decide
  by_cases hc : c = escapeMark
  · subst hc
    exact fun h => (escapes_concat_mark [escapeMark]).mp h hmark
  · exact not_escapes_concat hc [escapeMark]

theorem not_escapes_singleton {c : Char} (hc : c ≠ escapeMark) : ¬ Escapes [c] :=
  not_escapes_concat hc []

/-! ## Quotes and marks that are escaped -/

/-- Each of these quotes is escaped. -/
def AllEscaped (quote : Char) (cs : List Char) : Prop :=
  ∀ front rest, cs = front ++ quote :: rest → Escapes front

/-- The characters that follow on `front`, without each escape mark that is not escaped itself. -/
def withoutMarks (front : List Char) : List Char → List Char
  | [] => []
  | c :: cs =>
    if c = escapeMark ∧ ¬ Escapes front then withoutMarks (front ++ [c]) cs
    else c :: withoutMarks (front ++ [c]) cs

/-- The marks that are not escaped are the ones that take the meaning of what follows them. -/
theorem withoutMarks_eq_unescape {front : List Char} (h : ¬ Escapes front) (cs : List Char) :
    withoutMarks front cs = unescape cs := by
  fun_induction unescape cs generalizing front with
  | case1 => rfl
  | case2 => rw [withoutMarks, if_pos ⟨rfl, h⟩, withoutMarks]
  | case3 c rest ih =>
    have hmark : Escapes (front ++ [escapeMark]) := (escapes_concat_mark front).mpr h
    have hpair : ¬ Escapes (front ++ [escapeMark] ++ [c]) := by
      rw [List.append_assoc, List.singleton_append, escapes_append h]
      exact not_escapes_pair c
    rw [withoutMarks, if_pos ⟨rfl, h⟩, withoutMarks, if_neg fun hc => hc.2 hmark, ih hpair]
  | case4 c rest hc ih =>
    rw [withoutMarks, if_neg fun hand => hc hand.1, ih (not_escapes_concat hc front)]

section
variable {quote c : Char} {cs : List Char}

theorem allEscaped_nil : AllEscaped quote [] := fun front rest h => by simp at h

/-- A mark at the end escapes nothing. -/
theorem allEscaped_mark (hq : quote ≠ escapeMark) : AllEscaped quote [escapeMark] := by
  intro front rest hsplit
  obtain ⟨-, hmark⟩ | ⟨_, -, hnil⟩ := List.cons_eq_append_iff.mp hsplit
  · exact absurd (List.cons.inj hmark).1 hq
  · simp at hnil

/-- An escaped character may be a quote. -/
theorem AllEscaped.cons_pair (hq : quote ≠ escapeMark) (h : AllEscaped quote cs) (c : Char) :
    AllEscaped quote (escapeMark :: c :: cs) := by
  intro front rest hsplit
  match front, hsplit with
  | [], hsplit => exact absurd (List.cons.inj hsplit).1.symm hq
  | [_], hsplit =>
    rw [← (List.cons.inj hsplit).1]
    decide
  | _ :: _ :: front, hsplit =>
    obtain ⟨hmark, hsplit⟩ := List.cons.inj hsplit
    obtain ⟨hc, hsplit⟩ := List.cons.inj hsplit
    rw [← hmark, ← hc]
    exact (escapes_append (not_escapes_pair c) front).mpr (h front rest hsplit)

theorem AllEscaped.cons (hc : c ≠ escapeMark) (hquote : c ≠ quote) (h : AllEscaped quote cs) :
    AllEscaped quote (c :: cs) := by
  intro front rest hsplit
  cases front with
  | nil => exact absurd (List.cons.inj hsplit).1 hquote
  | cons d front =>
    obtain ⟨hd, hsplit⟩ := List.cons.inj hsplit
    rw [← hd]
    exact (escapes_append (not_escapes_singleton hc) front).mpr (h front rest hsplit)

/-- What follows a quote goes up to the first quote that is not escaped, or it has none. -/
theorem ofBody_cases (hq : quote ≠ escapeMark) (cs : List Char) :
    (∃ front rest, cs = front ++ quote :: rest ∧ ¬ Escapes front ∧ AllEscaped quote front ∧
      Literal.ofBody (· = quote) cs = ⟨front ++ [quote], unescape front, true⟩) ∨
    (AllEscaped quote cs ∧ Literal.ofBody (· = quote) cs = ⟨cs, unescape cs, false⟩) := by
  fun_induction Literal.ofBody (· = quote) cs with
  | case1 => exact .inr ⟨allEscaped_nil, rfl⟩
  | case2 => exact .inr ⟨allEscaped_mark hq, rfl⟩
  | case3 c cs ih =>
    obtain ⟨front, rest, rfl, hbare, hfront, hread⟩ | ⟨hall, hread⟩ := ih
    · refine .inl ⟨escapeMark :: c :: front, rest, rfl, ?_, hfront.cons_pair hq c, ?_⟩
      · exact fun h => hbare ((escapes_append (not_escapes_pair c) front).mp h)
      · rw [hread, unescape_escaped]
        rfl
    · refine .inr ⟨hall.cons_pair hq c, ?_⟩
      rw [hread, unescape_escaped]
      rfl
  | case4 c cs hc hclose =>
    obtain rfl := of_decide_eq_true hclose
    exact .inl ⟨[], cs, rfl, not_escapes_nil, allEscaped_nil, rfl⟩
  | case5 c cs hc hclose ih =>
    have hquote : c ≠ quote := fun heq => hclose (decide_eq_true heq)
    obtain ⟨front, rest, rfl, hbare, hfront, hread⟩ | ⟨hall, hread⟩ := ih
    · refine .inl ⟨c :: front, rest, rfl, ?_, hfront.cons hc hquote, ?_⟩
      · exact fun h => hbare ((escapes_append (not_escapes_singleton hc) front).mp h)
      · rw [hread, unescape_plain hc]
        rfl
    · refine .inr ⟨hall.cons hc hquote, ?_⟩
      rw [hread, unescape_plain hc]
      rfl

/-- Without a quote that is not escaped everything is read. -/
theorem ofFront_of_allEscaped (hq : quote ≠ escapeMark) {text : List Char}
    (h : AllEscaped quote text.tail) :
    Literal.ofFront (· = quote) text = ⟨text, unescape text.tail, false⟩ := by
  cases text with
  | nil => rfl
  | cons c body =>
    obtain ⟨front, rest, rfl, hbare, -⟩ | ⟨-, hread⟩ := ofBody_cases hq body
    · exact absurd (h front rest rfl) hbare
    · rw [Literal.ofFront, hread]
      rfl

end
end Lexeme

/-! ## Reading -/

namespace Scanner

variable {closes : Char → Bool} {s : Scanner} {c : Char} {body raw rest value : List Char}

/-- A delimited text that is closed is passed over, and gives its value. -/
theorem readEscaped_closed (hs : s.cursor.rest = c :: body) (hbody : body = raw ++ rest)
    (hread : Literal.ofBody closes body = ⟨raw, value, true⟩) :
    readEscaped closes s = .ok (String.ofList value) (s.after (c :: raw)) ∧
      (s.after (c :: raw)).cursor.rest = rest := by
  constructor
  · rw [readEscaped, Step.bind_apply, readLiteral, hs, Literal.ofFront, hread]
    rfl
  · rw [after_rest, hs, hbody, ← List.cons_append, List.drop_left]

/-- Without a closing delimiter everything is passed over. It counts where strings may stay open. -/
theorem readEscaped_open (hread : Literal.ofFront closes s.cursor.rest = ⟨s.cursor.rest, value, false⟩) :
    readEscaped closes s =
      if s.strict then .error (.lexical .openString s.location) (s.after s.cursor.rest)
      else .ok (String.ofList value) (s.after s.cursor.rest) := by
  obtain ⟨cursor, strict⟩ := s
  rw [readEscaped, Step.bind_apply, readLiteral, hread]
  cases strict <;> rfl

/-- A delimited text, whatever its quote:
* what has been escaped for the quote is read as what it was, and nothing behind its closing quote is
  touched;
* with a quote that is not escaped behind its first character, the text goes up to the first such quote
  and gives what lies between, without the escape marks that are not escaped themselves;
* without one it goes on to the end where strings may stay open, and gives all that is behind its first
  character, again without these marks. -/
theorem readEscaped_decodes {quote : Char} (hq : quote ≠ escapeMark) (s : Scanner) :
    (∀ (v : String) (rest : List Char),
      s.cursor.rest = quote :: (escaped quote v.toList ++ quote :: rest) →
      ∃ s', readEscaped (· = quote) s = .ok v s' ∧
        s' = s.after (quote :: (escaped quote v.toList ++ [quote])) ∧ s'.cursor.rest = rest) ∧
    (∀ (c : Char) (body : List Char), s.cursor.rest = c :: body →
      (∃ front rest, body = front ++ quote :: rest ∧ ¬ Escapes front) →
      ∃ front rest, body = front ++ quote :: rest ∧ ¬ Escapes front ∧ AllEscaped quote front ∧
        ∃ s', readEscaped (· = quote) s = .ok (String.ofList (withoutMarks [] front)) s' ∧
          s' = s.after (c :: (front ++ [quote])) ∧ s'.cursor.rest = rest) ∧
    (s.strict = false → AllEscaped quote s.cursor.rest.tail →
      ∃ s', readEscaped (· = quote) s = .ok (String.ofList (withoutMarks [] s.cursor.rest.tail)) s' ∧
        s' = s.after s.cursor.rest ∧ s'.cursor.rest = []) := by
  simp only [withoutMarks_eq_unescape not_escapes_nil]
  refine ⟨fun v rest hs => ?_, fun c body hs hbare => ?_, fun hstrict hall => ?_⟩
  · obtain ⟨hvalue, hrest⟩ := readEscaped_closed hs (List.append_cons _ _ _) (ofBody_escaped hq _ rest)
    rw [String.ofList_toList] at hvalue
    exact ⟨_, hvalue, rfl, hrest⟩
  · obtain ⟨front, rest, rfl, hfree, hfront, hread⟩ | ⟨hall, -⟩ := ofBody_cases hq body
    · obtain ⟨hvalue, hrest⟩ := readEscaped_closed hs (List.append_cons _ _ _) hread
      exact ⟨front, rest, rfl, hfree, hfront, _, hvalue, rfl, hrest⟩
    · obtain ⟨front, rest, hsplit, hfree⟩ := hbare
      exact absurd (hall front rest hsplit) hfree
  · refine ⟨_, ?_, rfl, by rw [after_rest, List.drop_length]⟩
    rw [readEscaped_open (ofFront_of_allEscaped hq hall), hstrict]
    rfl

/-- Between bars a bar behind two escape marks closes, and one behind three does not. -/
theorem readEscaped_decodes_bar :
    let closed : Scanner := ⟨.ofText "|a\\\\|b\"" "x", true⟩
    let opened : Scanner := ⟨.ofText "|a\\\\\\|b\\" "x", false⟩
    (∃ s', readEscaped (· = '|') closed = .ok "a\\" s' ∧ s'.cursor.rest = ['b', '"']) ∧
    ∃ s', readEscaped (· = '|') opened = .ok "a\\|b" s' ∧ s'.cursor.rest = [] := by
  intro closed opened
  have hq : '|' ≠ escapeMark := by decide
  constructor
  · obtain ⟨s', hread, -, hrest⟩ := (readEscaped_decodes hq closed).1 "a\\" ['b', '"'] (by decide)
    exact ⟨s', hread, hrest⟩
  · have hall : AllEscaped '|' opened.cursor.rest.tail := by
      exact .cons (by decide) (by decide) <| .cons_pair hq (.cons_pair hq
        (.cons (by decide) (by decide) (allEscaped_mark hq)) '|') escapeMark
    obtain ⟨s', hread, -, hrest⟩ := (readEscaped_decodes hq opened).2.2 rfl hall
    exact ⟨s', hread, hrest⟩

end Scanner
end LambdaReader

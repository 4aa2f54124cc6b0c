import LambdaReader.Proofs.Lexeme
import LambdaReader.Proofs.Step

/-!
# `Proofs.Scan` — the scanner reads lexemes

Two laws tie the scanner to the classes of `Proofs.Lexeme`:
* `readNext_some`: what a scan returns is a lexeme, with nothing but blanks and comments before it;
* `readNext_lexeme`: a lexeme that its continuation does not extend is returned whole.
The first makes the scanner a lawful token source (`Proofs.Stream`); by the second, written text is
read back (`Proofs.Writing`).
-/

namespace LambdaReader
namespace Scanner

open Lexicon Lexeme Step

/-- The scanner after a run of characters. -/
def after (s : Scanner) (run : List Char) : Scanner := { s with cursor := s.cursor.consume run }

@[simp] theorem after_location (s : Scanner) (run : List Char) :
    (s.after run).location = s.location.advance run := rfl

@[simp] theorem after_rest (s : Scanner) (run : List Char) :
    (s.after run).cursor.rest = s.cursor.rest.drop run.length := rfl

theorem take_apply (run : List Char → List Char) (s : Scanner) :
    take run s = .ok (run s.cursor.rest) (s.after (run s.cursor.rest)) := rfl

/-- The token is a lexeme at the front of the text, and the scanner has moved over it. -/
def Takes (s : Scanner) (t : Token) (s' : Scanner) : Prop :=
  ∃ run, run <+: s.cursor.rest ∧ Denotes t.kind run t.value ∧
    t = ⟨t.kind, String.ofList run, t.value, s.location⟩ ∧ s' = s.after run

/-! ## What the readers return -/

variable {s s' : Scanner} {t : Token}

theorem readNumber_ok {c : Char} {cs : List Char} (hs : s.cursor.rest = c :: cs)
    (hc : isDigit c = true ∨ c = point) (h : readNumber s = .ok t s') : Takes s t s' := by
  simp only [readNumber, bind_apply, get_apply, take_apply] at h
  rw [hs] at h
  split at h
  · cases h
  · next hne =>
    have hnum := (numeralRun_spec cs hc).resolve_left hne
    obtain ⟨d, hd⟩ := ofNumeral?_isSome hnum
    rw [hd] at h
    cases h
    exact ⟨numeralRun (c :: cs), hs ▸ numeralRun_isPrefix _, .number hnum hd, rfl, rfl⟩

theorem readWord_ok {c : Char} {cs : List Char} (hs : s.cursor.rest = c :: cs)
    (hc : isIdentifierStart c = true) (h : readWord s = .ok t s') : Takes s t s' := by
  simp only [readWord, readWhile, bind_apply, get_apply, take_apply, pure_apply] at h
  rw [hs] at h
  cases h
  have hword : isWord ((c :: cs).takeWhile isIdentifierChar) = true := by
    simp [isIdentifierChar, hc, isWord]
  refine ⟨(c :: cs).takeWhile isIdentifierChar, hs ▸ List.takeWhile_prefix _, ?_, rfl, rfl⟩
  simp only [Token.plain]
  split
  · next hk => exact .keyword hword hk
  · next hk => exact .identifier hword (by simpa using hk)

theorem readString_ok {cs : List Char} (hs : s.cursor.rest = stringQuote :: cs)
    (h : readString s = .ok t s') : Takes s t s' := by
  simp only [readString, readLiteral, bind_apply, get_apply] at h
  rw [hs] at h
  split at h
  · next found s₁ hl =>
    split at hl
    · cases hl
    · cases hl
      cases h
      refine ⟨_, ?_, .string (ofBody_raw _ cs), rfl, rfl⟩
      rw [hs]
      exact Literal.raw_ofFront_isPrefix _ (stringQuote :: cs)
  · cases h

theorem readPunctuation_ok {c : Char} {cs : List Char} (hs : s.cursor.rest = c :: cs)
    (hc : isPunctuation c = true) (h : readPunctuation s = .ok t s') : Takes s t s' := by
  simp only [readPunctuation_eq, bind_apply, get_apply, take_apply, pure_apply] at h
  rw [hs] at h
  cases h
  exact ⟨[c], by rw [hs]; exact List.prefix_append [c] cs, .punctuation hc, rfl, rfl⟩

theorem readOperator_ok {c : Char} {cs : List Char} (hs : s.cursor.rest = c :: cs)
    (hc : isOperatorChar c = true) (h : readOperator s = .ok t s') : Takes s t s' := by
  simp only [readOperator, readWhile, bind_apply, get_apply, take_apply, pure_apply] at h
  rw [hs] at h
  cases h
  have hsymbol : isSymbol ((c :: cs).takeWhile isOperatorChar) = true := by simp [hc, isSymbol]
  exact ⟨_, hs ▸ List.takeWhile_prefix _, .operator hsymbol, rfl, rfl⟩

/-- The token that starts with the next character is a lexeme. -/
theorem readToken_ok {c : Char} {cs : List Char} (hs : s.cursor.rest = c :: cs)
    (h : readToken c s = .ok t s') : Takes s t s' := by
  unfold readToken at h
  split at h
  · next hc => subst hc; exact readString_ok hs h
  split at h
  · next hc => exact readNumber_ok hs hc h
  split at h
  · next hc => exact readWord_ok hs hc h
  split at h
  · next hc => exact readPunctuation_ok hs hc h
  split at h
  · next hc => exact readOperator_ok hs hc h
  · cases h

theorem readNext_apply (s : Scanner) :
    readNext s = match (s.after (triviaRun false s.cursor.rest)).cursor.rest with
      | [] => .ok none (s.after (triviaRun false s.cursor.rest))
      | c :: _ =>
        match readToken c (s.after (triviaRun false s.cursor.rest)) with
        | .ok t s' => .ok (some t) s'
        | .error e s' => .error e s' := by
  simp only [readNext, bind_apply, get_apply, take_apply, Cursor.peek]
  cases (s.after (triviaRun false s.cursor.rest)).cursor.rest with
  | nil => rfl
  | cons c cs =>
    show (readToken c >>= fun t => pure (some t)) _ = _
    rw [bind_apply]
    dsimp only
    cases readToken c (s.after (triviaRun false s.cursor.rest)) <;> rfl

/-- What a scan returns is a lexeme, with nothing but blanks and comments before it. -/
theorem readNext_some (h : readNext s = .ok (some t) s') :
    Takes (s.after (triviaRun false s.cursor.rest)) t s' := by
  rw [readNext_apply] at h
  split at h
  · cases h
  · next c cs hc =>
    split at h
    · next t' s₁ hread => cases h; exact readToken_ok hc hread
    · cases h

/-- A scan that finds no token has come to the end. -/
theorem readNext_none (h : readNext s = .ok none s') :
    s' = s.after (triviaRun false s.cursor.rest) ∧ s'.cursor.rest = [] := by
  rw [readNext_apply] at h
  split at h
  · next hnil => cases h; exact ⟨rfl, hnil⟩
  · split at h <;> cases h

theorem readNext_of_nil (h : s.cursor.rest = []) : readNext s = .ok none s := by
  have hrun : s.after (triviaRun false s.cursor.rest) = s := by rw [h]; rfl
  rw [readNext_apply, hrun, h]

/-- A token is refused for a lexical cause only: every numeral denotes a number. Strings are refused in
strict reading only. -/
theorem readToken_error {e : Failure} {c : Char} {cs : List Char} (hs : s.cursor.rest = c :: cs)
    (h : readToken c s = .error e s') :
    ∃ cause l, e = .lexical cause l ∧ (cause = .openString → s.strict = true) := by
  unfold readToken at h
  split at h
  · simp only [readString, readLiteral, bind_apply, get_apply] at h
    split at h
    · cases h
    · next hl =>
      split at hl
      · next hopen =>
        cases hl
        cases h
        exact ⟨_, _, rfl, fun _ => (Bool.and_eq_true_iff.mp hopen).2⟩
      · cases hl
  split at h
  · next hc =>
    simp only [readNumber, bind_apply, get_apply, take_apply] at h
    rw [hs] at h
    split at h
    · cases h; exact ⟨_, _, rfl, nofun⟩
    · -- a run that is not a lone point is a numeral, and every numeral denotes a number
      next hne =>
      obtain ⟨d, hd⟩ := ofNumeral?_isSome ((numeralRun_spec cs hc).resolve_left hne)
      rw [hd] at h
      cases h
  -- Words, marks and operators are never refused.
  split at h
  · cases h
  split at h
  · cases h
  split at h
  · cases h
  · cases h; exact ⟨_, _, rfl, nofun⟩

/-- A scan fails for a lexical cause only, and at an open string in strict reading only. -/
theorem readNext_error {e : Failure} (h : readNext s = .error e s') :
    ∃ cause l, e = .lexical cause l ∧ (cause = .openString → s.strict = true) := by
  rw [readNext_apply] at h
  split at h
  · cases h
  · next c cs hc =>
    split at h
    · cases h
    · next hread =>
      cases h
      have hrefused := readToken_error hc hread
      exact hrefused

/-! ## What is returned -/

variable {kind : TokenKind} {run rest : List Char} {v : Value}

theorem readNumber_lexeme {d : Decimal} (hnum : isNumeral run = true)
    (hd : Decimal.ofNumeral? run = some d) (hstop : Stops .number run rest)
    (hs : s.cursor.rest = run ++ rest) :
    readNumber s = .ok ⟨.number, String.ofList run, .number d.toFloat, s.location⟩ (s.after run) := by
  have hne : run ≠ [point] := by rintro rfl; exact absurd hnum (by decide)
  simp only [readNumber, bind_apply, get_apply, take_apply]
  rw [hs, numeralRun_append hnum hstop, if_neg hne, hd]
  rfl

theorem takeWhile_append {isIn : Char → Bool} (hall : run.all isIn = true)
    (hstop : ∀ c ∈ rest.head?, isIn c = false) : (run ++ rest).takeWhile isIn = run := by
  rw [List.takeWhile_append_of_pos (List.all_eq_true.mp hall)]
  cases rest with
  | nil => simp
  | cons c rest => simp [hstop c rfl]

theorem readWord_lexeme (hword : isWord run = true)
    (hstop : ∀ c ∈ rest.head?, isIdentifierChar c = false) (hs : s.cursor.rest = run ++ rest) :
    readWord s = .ok (.plain (if isKeyword (String.ofList run) then .keyword else .identifier)
      (String.ofList run) s.location) (s.after run) := by
  have hall : run.all isIdentifierChar = true := by
    cases run with
    | nil => rfl
    | cons c cs =>
      simp only [isWord, Bool.and_eq_true] at hword
      simp [isIdentifierChar, hword.1, hword.2]
  simp only [readWord, readWhile, bind_apply, get_apply, take_apply, pure_apply]
  rw [hs, takeWhile_append hall hstop]

theorem readString_lexeme {cs value : List Char} {closed : Bool}
    (hl : Literal.ofBody (· = stringQuote) cs = ⟨cs, value, closed⟩)
    (hstop : Stops .string (stringQuote :: cs) rest)
    (hs : s.cursor.rest = stringQuote :: cs ++ rest) :
    readString s = .ok ⟨.string, String.ofList (stringQuote :: cs), .text (String.ofList value),
      s.location⟩ (s.after (stringQuote :: cs)) := by
  have hclosed : (Literal.ofBody (· = stringQuote) cs).closed = true := hstop
  have hraw : (Literal.ofBody (· = stringQuote) cs).raw = cs := by rw [hl]
  have hfront : Literal.ofFront (· = stringQuote) (stringQuote :: cs ++ rest) =
      ⟨stringQuote :: cs, value, true⟩ := by
    rw [List.cons_append, Literal.ofFront, ofBody_append rest hraw hclosed, hl]
    rw [hl] at hclosed
    rw [Literal.mark, show closed = true from hclosed]
  simp only [readString, readLiteral, bind_apply, get_apply]
  rw [hs, hfront]
  rfl

theorem readOperator_lexeme (hsymbol : isSymbol run = true)
    (hstop : Stops .operator run rest) (hs : s.cursor.rest = run ++ rest) :
    readOperator s = .ok (.plain .operator (String.ofList run) s.location) (s.after run) := by
  simp only [isSymbol, Bool.and_eq_true] at hsymbol
  simp only [readOperator, readWhile, bind_apply, get_apply, take_apply, pure_apply]
  rw [hs, takeWhile_append hsymbol.2 hstop]

/-- The reader is chosen by the first character of the lexeme. -/
theorem readToken_lexeme {c : Char} {cs : List Char} (hd : Denotes kind (c :: cs) v)
    (hstop : Stops kind (c :: cs) rest) (hs : s.cursor.rest = c :: cs ++ rest) :
    readToken c s = .ok ⟨kind, String.ofList (c :: cs), v, s.location⟩ (s.after (c :: cs)) := by
  have hrun : ∃ run, run = c :: cs := ⟨_, rfl⟩
  obtain ⟨run, hrun⟩ := hrun
  rw [← hrun] at hd hstop hs ⊢
  cases hd with
  | @number _ d hnum hdec =>
    -- A numeral starts with a digit or the point, which start nothing else.
    have hc : isDigit c = true ∨ c = point := by
      simp only [isNumeral, hrun, Bool.and_eq_true, List.all_cons, Bool.or_eq_true,
        beq_iff_eq] at hnum
      exact hnum.1.1.1
    have hq : c ≠ stringQuote := by
      rcases hc with hc | rfl
      · exact isDigit_ne_quote hc
      · decide
    rw [readToken, if_neg hq, if_pos hc]
    exact readNumber_lexeme hnum hdec hstop hs
  | string hl =>
    injection hrun with hc _
    rw [readToken, if_pos hc.symm]
    exact readString_lexeme hl hstop hs
  | keyword hword hk =>
    have hc : isIdentifierStart c = true := by
      rw [hrun] at hword; simp only [isWord, Bool.and_eq_true] at hword; exact hword.1
    obtain ⟨hq, hp⟩ := isIdentifierStart_ne_quote hc
    rw [readToken, if_neg hq, if_neg (by simp [isDigit_of_isIdentifierStart hc, hp]), if_pos hc,
      readWord_lexeme hword hstop hs, if_pos hk]
    rfl
  | identifier hword hk =>
    have hc : isIdentifierStart c = true := by
      rw [hrun] at hword; simp only [isWord, Bool.and_eq_true] at hword; exact hword.1
    obtain ⟨hq, hp⟩ := isIdentifierStart_ne_quote hc
    rw [readToken, if_neg hq, if_neg (by simp [isDigit_of_isIdentifierStart hc, hp]), if_pos hc,
      readWord_lexeme hword hstop hs, hk]
    rfl
  | punctuation hc =>
    injection hrun with hcc hcs
    subst hcc; subst hcs
    obtain ⟨hq, hd, hp, hi⟩ := isPunctuation_excludes hc
    rw [readToken, if_neg hq, if_neg (by simp [hd, hp]), if_neg (by simp [hi]), if_pos hc]
    simp only [readPunctuation_eq, bind_apply, get_apply, take_apply, pure_apply]
    rw [hs]
    rfl
  | operator hsymbol =>
    -- What starts an operator starts nothing that is tried before it.
    have hc : isOperatorChar c = true := by
      rw [hrun] at hsymbol
      simp only [isSymbol, List.all_cons, Bool.and_eq_true] at hsymbol
      exact hsymbol.2.1
    obtain ⟨hq, hd, hp, hi, hpunct⟩ := isOperatorChar_excludes hc
    rw [readToken, if_neg hq, if_neg (by simp [hd, hp]), if_neg (by simp [hi]),
      if_neg (by simp [hpunct]), if_pos hc, readOperator_lexeme hsymbol hstop hs]
    rfl

/-- A lexeme that its continuation does not extend is returned whole, whatever gap stands before it. -/
theorem readNext_lexeme {gap : List Char} (hgap : Gap gap) (hd : Denotes kind run v)
    (hstop : Stops kind run rest) (hs : s.cursor.rest = gap ++ (run ++ rest)) :
    readNext s = .ok (some ⟨kind, String.ofList run, v, (s.after gap).location⟩)
      ((s.after gap).after run) := by
  obtain ⟨c, cs, rfl, hblank, hmark⟩ := hd.opens
  have htrivia : triviaRun false s.cursor.rest = gap := by
    rw [hs, triviaRun_gap hgap, List.cons_append, triviaRun]
    simp [hblank, hmark]
  have hrest : (s.after gap).cursor.rest = c :: cs ++ rest := by
    rw [after_rest, hs, List.drop_left]
  rw [readNext_apply, htrivia, hrest, List.cons_append]
  dsimp only
  rw [readToken_lexeme hd hstop hrest]

end Scanner
end LambdaReader

import LambdaReader.TokenSource

/-!
# `Proofs.Lexeme` — what one scan reads

A lexeme is a stretch of text that is one token by itself. `Denotes` says which stretches are lexemes
of which kind and what they stand for, without saying how they are found. The stretches of `Scanner`
are measured against it here: what they find is a lexeme, and they find a lexeme again before anything
that does not extend it. That the scanner itself reads lexemes is the subject of `Proofs.Scan`.
-/

namespace LambdaReader

open Lexicon

/-! ## Lexemes -/

namespace Lexeme

/-- Digits with at most one point, and at least one digit. -/
def isNumeral (cs : List Char) : Bool :=
  cs.all (fun c => isDigit c || c == point) && cs.count point ≤ 1 && cs.any isDigit

/-- A letter followed by what an identifier may hold. -/
def isWord : List Char → Bool
  | [] => false
  | c :: cs => isIdentifierStart c && cs.all isIdentifierChar

/-- A run of operator characters. -/
def isSymbol (cs : List Char) : Bool := !cs.isEmpty && cs.all isOperatorChar

/-- The characters are a lexeme of that kind and stand for that value. -/
inductive Denotes : TokenKind → List Char → Value → Prop where
  | number {cs d} : isNumeral cs = true → Decimal.ofNumeral? cs = some d →
      Denotes .number cs (.number d.toFloat)
  /-- A string goes up to the first quote that is not escaped, or to the end. -/
  | string {cs value closed} : Literal.ofBody (· = stringQuote) cs = ⟨cs, value, closed⟩ →
      Denotes .string (stringQuote :: cs) (.text (String.ofList value))
  | keyword {cs} : isWord cs = true → isKeyword (String.ofList cs) = true →
      Denotes .keyword cs (.text (String.ofList cs))
  | identifier {cs} : isWord cs = true → isKeyword (String.ofList cs) = false →
      Denotes .identifier cs (.text (String.ofList cs))
  | punctuation {c} : isPunctuation c = true →
      Denotes .punctuation [c] (.text (String.ofList [c]))
  | operator {cs} : isSymbol cs = true → Denotes .operator cs (.text (String.ofList cs))

theorem Denotes.ne_nil {kind : TokenKind} {cs : List Char} {v : Value} (h : Denotes kind cs v) :
    cs ≠ [] := by
  cases h with
  | number h _ => rintro rfl; simp [isNumeral] at h
  | string _ => simp
  | keyword h _ => rintro rfl; simp [isWord] at h
  | identifier h _ => rintro rfl; simp [isWord] at h
  | punctuation _ => simp
  | operator h => rintro rfl; simp [isSymbol] at h

/-! ## The first character tells the class -/

theorem isDigit_ne_quote {c : Char} (h : isDigit c = true) : c ≠ stringQuote := by
  rintro rfl; exact absurd h (by decide)

theorem isIdentifierStart_ne_quote {c : Char} (h : isIdentifierStart c = true) :
    c ≠ stringQuote ∧ c ≠ point := by
  constructor <;> (rintro rfl; exact absurd h (by decide))

/-- No letter is a digit. -/
theorem isDigit_of_isIdentifierStart {c : Char} (h : isIdentifierStart c = true) :
    isDigit c = false := by
  rw [Bool.eq_false_iff]
  intro hd
  -- There are ten digits, so all of them can be looked at.
  have hmem := isDigit_iff_mem.mp hd
  have hall : digits.all (fun d => !isIdentifierStart d) = true := by decide
  have := List.all_eq_true.mp hall c hmem
  simp [h] at this

/-- Marks of punctuation open nothing else. -/
theorem isPunctuation_excludes {c : Char} (h : isPunctuation c = true) :
    c ≠ stringQuote ∧ isDigit c = false ∧ c ≠ point ∧ isIdentifierStart c = false := by
  have hall : punctuation.all (fun d => d != stringQuote && !isDigit d && d != point &&
      !isIdentifierStart d) = true := by decide
  have := List.all_eq_true.mp hall c (by simpa [isPunctuation] using h)
  simpa [and_assoc] using this

/-- Operator characters open nothing else. -/
theorem isOperatorChar_excludes {c : Char} (h : isOperatorChar c = true) :
    c ≠ stringQuote ∧ isDigit c = false ∧ c ≠ point ∧ isIdentifierStart c = false ∧
      isPunctuation c = false := by
  have hall : operatorChars.all (fun d => d != stringQuote && !isDigit d && d != point &&
      !isIdentifierStart d && !isPunctuation d) = true := by decide
  have := List.all_eq_true.mp hall c (by simpa [isOperatorChar] using h)
  simpa [and_assoc] using this

/-! ## Numerals -/

theorem isNumeral_digits {ds : List Char} (hd : ∀ c ∈ ds, isDigit c = true) (hne : ds ≠ []) :
    isNumeral ds = true := by
  have hp : point ∉ ds := fun hm => absurd (hd _ hm) (by decide)
  obtain ⟨c, rest, rfl⟩ := List.exists_cons_of_ne_nil hne
  have hc : isDigit c = true := hd c (by simp)
  simp only [isNumeral, List.count_eq_zero.mpr hp, Bool.and_eq_true, List.all_eq_true]
  exact ⟨⟨fun x hx => by simp [hd x hx], by decide⟩, by simp [hc]⟩

theorem isNumeral_pointed {ds fs : List Char} (hd : ∀ c ∈ ds, isDigit c = true)
    (hf : ∀ c ∈ fs, isDigit c = true) (hne : ds ++ fs ≠ []) :
    isNumeral (ds ++ point :: fs) = true := by
  have hpd : point ∉ ds := fun hm => absurd (hd _ hm) (by decide)
  have hpf : point ∉ fs := fun hm => absurd (hf _ hm) (by decide)
  have hcount : (ds ++ point :: fs).count point = 1 := by
    rw [List.count_append, List.count_cons_self, List.count_eq_zero.mpr hpd,
      List.count_eq_zero.mpr hpf]
  obtain ⟨c, hc⟩ := List.exists_mem_of_ne_nil _ hne
  have hdig : isDigit c = true := by
    rcases List.mem_append.mp hc with h | h
    · exact hd c h
    · exact hf c h
  simp only [isNumeral, hcount, Bool.and_eq_true, List.all_eq_true, List.any_eq_true]
  refine ⟨⟨fun x hx => ?_, by decide⟩, c, ?_, hdig⟩
  · rcases List.mem_append.mp hx with h | h
    · simp [hd x h]
    · rcases List.mem_cons.mp h with h | h
      · simp [h]
      · simp [hf x h]
  · rcases List.mem_append.mp hc with h | h
    · exact List.mem_append_left _ h
    · exact List.mem_append_right _ (List.mem_cons_of_mem _ h)

/-- A numeral is a run of digits, or two runs around a point of which one may be empty. -/
theorem isNumeral_cases {cs : List Char} (h : isNumeral cs = true) :
    ∃ ds : List Char, (∀ c ∈ ds, isDigit c = true) ∧
      (cs = ds ∧ ds ≠ [] ∨
        ∃ fs : List Char, (∀ c ∈ fs, isDigit c = true) ∧ cs = ds ++ point :: fs ∧ ds ++ fs ≠ []) := by
  simp only [isNumeral, Bool.and_eq_true, List.all_eq_true, Bool.or_eq_true, beq_iff_eq,
    decide_eq_true_eq, List.any_eq_true] at h
  obtain ⟨⟨hall, hcount⟩, d, hdmem, hd⟩ := h
  have hsplit : cs.takeWhile isDigit ++ cs.dropWhile isDigit = cs := List.takeWhile_append_dropWhile
  refine ⟨cs.takeWhile isDigit, List.all_eq_true.mp List.all_takeWhile, ?_⟩
  cases hrest : cs.dropWhile isDigit with
  | nil =>
    rw [hrest, List.append_nil] at hsplit
    have hne : cs.takeWhile isDigit ≠ [] := by
      rw [hsplit]
      exact List.ne_nil_of_mem hdmem
    exact .inl ⟨hsplit.symm, hne⟩
  | cons c fs =>
    -- Behind the first run of digits stands the point, which has been counted then.
    rw [hrest] at hsplit
    have hc : isDigit c = false := by
      have := List.head?_dropWhile_not isDigit cs
      rwa [hrest] at this
    have hcp : c = point := by
      rcases hall c (by rw [← hsplit]; simp) with h | h
      · rw [hc] at h; exact absurd h (by decide)
      · exact h
    subst hcp
    have hfree : fs.count point = 0 := by
      rw [← hsplit, List.count_append, List.count_cons_self] at hcount
      omega
    refine .inr ⟨fs, ?_, hsplit.symm, ?_⟩
    · intro x hx
      have hmem : x ∈ cs := by
        rw [← hsplit]
        simp [hx]
      rcases hall x hmem with h | h
      · exact h
      · exact absurd (h ▸ hx) (List.count_eq_zero.mp hfree)
    · intro hnil
      obtain ⟨h1, h2⟩ := List.append_eq_nil_iff.mp hnil
      rw [h1, h2] at hsplit
      rw [← hsplit, List.nil_append, List.mem_singleton] at hdmem
      rw [hdmem] at hd
      exact absurd hd (by decide)

/-- Every numeral denotes a number. -/
theorem ofNumeral?_isSome {cs : List Char} (h : isNumeral cs = true) :
    ∃ d, Decimal.ofNumeral? cs = some d := by
  obtain ⟨ds, hd, hforms⟩ := isNumeral_cases h
  have htake (rest : List Char) :
      (ds ++ rest).takeWhile Char.isDigit = ds ++ rest.takeWhile Char.isDigit :=
    List.takeWhile_append_of_pos hd
  have hdrop (rest : List Char) :
      (ds ++ rest).dropWhile Char.isDigit = rest.dropWhile Char.isDigit :=
    List.dropWhile_append_of_pos hd
  obtain ⟨rfl, hne⟩ | ⟨fs, hf, rfl, hne⟩ := hforms
  · have h1 := htake []
    have h2 := hdrop []
    rw [List.append_nil] at h1 h2
    refine ⟨⟨Decimal.ofDigits cs, 0⟩, ?_⟩
    simp [Decimal.ofNumeral?, h1, h2, hne]
  · have hall : fs.all Char.isDigit = true := List.all_eq_true.mpr hf
    refine ⟨⟨Decimal.ofDigits (ds ++ fs), -fs.length⟩, ?_⟩
    have h1 : (point :: fs).takeWhile Char.isDigit = [] := by
      simp [show Char.isDigit point = false by decide]
    have h2 : (point :: fs).dropWhile Char.isDigit = '.' :: fs := by
      simp [point]
    have hempty : (ds ++ fs).isEmpty = false := by simpa using hne
    simp only [Decimal.ofNumeral?, htake, hdrop, h1, h2, List.append_nil, hall, hempty]
    rfl

/-- What is read where a number could stand is a numeral, or a point alone. -/
theorem numeralRun_spec {c : Char} (cs : List Char) (h : isDigit c = true ∨ c = point) :
    numeralRun (c :: cs) = [point] ∨ isNumeral (numeralRun (c :: cs)) = true := by
  have hds : ∀ x ∈ (c :: cs).takeWhile isDigit, isDigit x = true :=
    List.all_eq_true.mp List.all_takeWhile
  have hdigits : isDigit c = true → (c :: cs).takeWhile isDigit ≠ [] := by
    intro hc; simp [hc]
  unfold numeralRun
  split
  · next hdrop =>
    refine .inr (isNumeral_digits hds (hdigits ?_))
    rcases h with h | rfl
    · exact h
    · simp [show isDigit point = false by decide] at hdrop
  · next x rest hdrop =>
    split
    · next hx =>
      -- A point with no digit on either side is no numeral.
      subst hx
      by_cases hnil : (c :: cs).takeWhile isDigit ++ rest.takeWhile isDigit = []
      · obtain ⟨h1, h2⟩ := List.append_eq_nil_iff.mp hnil
        exact .inl (by rw [h1, h2]; rfl)
      · exact .inr (isNumeral_pointed hds (List.all_eq_true.mp List.all_takeWhile) hnil)
    · next hx =>
      refine .inr (isNumeral_digits hds (hdigits ?_))
      rcases h with h | rfl
      · exact h
      · simp only [List.dropWhile_cons, show isDigit point = false by decide] at hdrop
        injection hdrop with hpx _
        exact absurd hpx.symm hx

/-- A numeral is read whole before anything that cannot go on with it. -/
theorem numeralRun_append {cs rest : List Char} (h : isNumeral cs = true)
    (hrest : ∀ c ∈ rest.head?, isDigit c = false ∧ (c = point → point ∈ cs)) :
    numeralRun (cs ++ rest) = cs := by
  obtain ⟨ds, hd, ⟨rfl, hne⟩ | ⟨fs, hf, rfl, hne⟩⟩ := isNumeral_cases h
  · have hp : point ∉ cs := fun hm => absurd (hd _ hm) (by decide)
    unfold numeralRun
    rw [List.dropWhile_append_of_pos hd, List.takeWhile_append_of_pos hd]
    cases rest with
    | nil => simp
    | cons c rest =>
      obtain ⟨hc, hcp⟩ := hrest c rfl
      have hne : c ≠ point := fun he => hp (hcp he)
      simp [hc, hne]
  · have hpoint : isDigit point = false := by decide
    have hstop : rest.takeWhile isDigit = [] := by
      cases rest with
      | nil => rfl
      | cons c rest => simp [(hrest c rfl).1]
    unfold numeralRun
    rw [List.append_assoc, List.cons_append, List.dropWhile_append_of_pos hd,
      List.takeWhile_append_of_pos hd]
    simp [hpoint, List.takeWhile_append_of_pos hf, hstop]

/-! ## Strings -/

theorem ofBody_escape (closes : Char → Bool) (c : Char) (cs : List Char) :
    Literal.ofBody closes (escapeMark :: c :: cs) =
      ((Literal.ofBody closes cs).push c).mark escapeMark := by
  rw [Literal.ofBody.eq_def]; simp

theorem ofBody_close {closes : Char → Bool} {c : Char} (hc : c ≠ escapeMark)
    (h : closes c = true) (cs : List Char) : Literal.ofBody closes (c :: cs) = ⟨[c], [], true⟩ := by
  rw [Literal.ofBody.eq_def]; simp [hc, h]

theorem ofBody_plain {closes : Char → Bool} {c : Char} (hc : c ≠ escapeMark)
    (h : closes c = false) (cs : List Char) :
    Literal.ofBody closes (c :: cs) = (Literal.ofBody closes cs).push c := by
  rw [Literal.ofBody.eq_def]; simp [hc, h]

/-- A literal is found again in its own characters. -/
theorem ofBody_raw (closes : Char → Bool) (cs : List Char) :
    Literal.ofBody closes (Literal.ofBody closes cs).raw = Literal.ofBody closes cs := by
  fun_induction Literal.ofBody closes cs with
  | case1 => rfl
  | case2 => rw [Literal.ofBody.eq_2, if_pos rfl]
  | case3 e tail ih =>
    show Literal.ofBody closes (escapeMark :: e :: _) = _
    rw [ofBody_escape, ih]
  | case4 c tail hc hcl => exact ofBody_close hc hcl []
  | case5 c tail hc hcl ih =>
    show Literal.ofBody closes (c :: _) = _
    rw [ofBody_plain hc (by simpa using hcl), ih]

/-- A literal that is closed by its last character does not look at what follows it. -/
theorem ofBody_append {closes : Char → Bool} {cs : List Char} (rest : List Char)
    (hraw : (Literal.ofBody closes cs).raw = cs)
    (hclosed : (Literal.ofBody closes cs).closed = true) :
    Literal.ofBody closes (cs ++ rest) = Literal.ofBody closes cs := by
  fun_induction Literal.ofBody closes cs with
  | case1 => simp at hclosed
  | case2 => simp at hclosed
  | case3 e tail ih =>
    simp only [Literal.mark, Literal.push, List.cons.injEq, true_and] at hraw hclosed
    rw [List.cons_append, List.cons_append, ofBody_escape, ih hraw hclosed]
  | case4 c tail hc hcl =>
    simp only [List.cons.injEq, true_and] at hraw
    rw [← hraw, List.cons_append, ofBody_close hc hcl]
  | case5 c tail hc hcl ih =>
    simp only [Literal.push, List.cons.injEq, true_and] at hraw hclosed
    rw [List.cons_append, ofBody_plain hc (by simpa using hcl), ih hraw hclosed]

/-- The characters with an escape mark before each quote and each escape mark. -/
def escaped (quote : Char) (cs : List Char) : List Char :=
  cs.flatMap fun c => if c = quote ∨ c = escapeMark then [escapeMark, c] else [c]

/-- Escaped characters are read up to the quote behind them, and stand for what they were. -/
theorem ofBody_escaped {quote : Char} (hq : quote ≠ escapeMark) (cs rest : List Char) :
    Literal.ofBody (· = quote) (escaped quote cs ++ quote :: rest) =
      ⟨escaped quote cs ++ [quote], cs, true⟩ := by
  induction cs with
  | nil => exact ofBody_close hq (decide_eq_true rfl) rest
  | cons c cs ih =>
    rw [escaped, List.flatMap_cons, ← escaped, List.append_assoc]
    by_cases hc : c = quote ∨ c = escapeMark
    · rw [if_pos hc]
      show Literal.ofBody _ (escapeMark :: c :: (escaped quote cs ++ quote :: rest)) = _
      rw [ofBody_escape, ih]
      rfl
    · rw [if_neg hc]
      obtain ⟨hquote, hmark⟩ := not_or.mp hc
      show Literal.ofBody _ (c :: (escaped quote cs ++ quote :: rest)) = _
      rw [ofBody_plain hmark (decide_eq_false hquote), ih]
      rfl

/-! ## Between lexemes, and where a lexeme stops -/

/-- What may stand between two lexemes without opening a third: blanks, and comments with their ends. -/
inductive Gap : List Char → Prop where
  | nil : Gap []
  | blank {c cs} : isBlank c = true → Gap cs → Gap (c :: cs)
  | comment {line cs} : (∀ c ∈ line, c ≠ '\n') → Gap cs →
      Gap (commentMark :: (line ++ '\n' :: cs))

/-- Nothing in `rest` goes on with the lexeme `run`; a string has to be closed. -/
def Stops : TokenKind → List Char → List Char → Prop
  | .number, run, rest => ∀ c ∈ rest.head?, isDigit c = false ∧ (c = point → point ∈ run)
  | .keyword, _, rest | .identifier, _, rest => ∀ c ∈ rest.head?, isIdentifierChar c = false
  | .operator, _, rest => ∀ c ∈ rest.head?, isOperatorChar c = false
  | .string, run, _ => (Literal.ofFront (· = stringQuote) run).closed = true
  | .punctuation, _, _ => True

/-- What may stand inside no lexeme but strings goes on with none. -/
theorem stops_of_head {kind : TokenKind} {run rest : List Char}
    (h : ∀ c ∈ rest.head?, isDigit c = false ∧ c ≠ point ∧ isIdentifierChar c = false ∧
      isOperatorChar c = false)
    (hclosed : kind = .string → (Literal.ofFront (· = stringQuote) run).closed = true) :
    Stops kind run rest := by
  cases kind with
  | number =>
    intro c hc
    obtain ⟨hdigit, hpoint, _⟩ := h c hc
    exact ⟨hdigit, fun heq => absurd heq hpoint⟩
  | string => exact hclosed rfl
  | keyword | identifier =>
    intro c hc
    exact (h c hc).2.2.1
  | punctuation => exact trivial
  | operator =>
    intro c hc
    exact (h c hc).2.2.2

theorem triviaRun_comment {line : List Char} (hline : ∀ c ∈ line, c ≠ '\n') (rest : List Char) :
    triviaRun true (line ++ '\n' :: rest) = line ++ '\n' :: triviaRun false rest := by
  induction line with
  | nil => simp [triviaRun]
  | cons c line ih =>
    have hc : c ≠ '\n' := hline c (by simp)
    simp [triviaRun, hc, ih fun x hx => hline x (by simp [hx])]

/-- A gap is passed over as a whole. -/
theorem triviaRun_gap {gap : List Char} (h : Gap gap) (rest : List Char) :
    triviaRun false (gap ++ rest) = gap ++ triviaRun false rest := by
  induction h with
  | nil => rfl
  | blank hc _ ih => simp [triviaRun, hc, ih]
  | @comment line cs hline _ ih =>
    have hmark : isBlank commentMark = false := by decide
    rw [List.cons_append, List.append_assoc, List.cons_append, triviaRun]
    simp [hmark, triviaRun_comment hline, ih]

/-- No lexeme starts like a gap. -/
theorem Denotes.opens {kind : TokenKind} {run : List Char} {v : Value} (h : Denotes kind run v) :
    ∃ c cs, run = c :: cs ∧ isBlank c = false ∧ c ≠ commentMark := by
  obtain ⟨c, cs, rfl⟩ := List.exists_cons_of_ne_nil h.ne_nil
  have hno : c ∉ commentMark :: blanks := by
    intro hmem
    have hnone : (commentMark :: blanks).all (fun d => !isDigit d && d != point &&
        d != stringQuote && !isIdentifierStart d && !isPunctuation d && !isOperatorChar d) = true := by
      decide
    have hc := List.all_eq_true.mp hnone c hmem
    simp only [Bool.and_eq_true, Bool.not_eq_true', bne_iff_ne] at hc
    obtain ⟨⟨⟨⟨⟨hdigit, hpoint⟩, hquote⟩, hstart⟩, hpunct⟩, hop⟩ := hc
    cases h with
    | number h _ => simp [isNumeral, hdigit, hpoint] at h
    | string _ => exact hquote rfl
    | keyword h _ => simp [isWord, hstart] at h
    | identifier h _ => simp [isWord, hstart] at h
    | punctuation h => rw [hpunct] at h; cases h
    | operator h => simp [isSymbol, hop] at h
  rw [List.mem_cons, not_or] at hno
  exact ⟨c, cs, rfl, by simpa [isBlank] using hno.2, hno.1⟩

end Lexeme
end LambdaReader

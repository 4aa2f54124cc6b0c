import LambdaReader.Proofs.Cutting

/-!
# `Proofs.Spelling` — words that are written are scanned

A text can be written from words, each spelled as its class asks for, with a gap behind each of them. No
word goes on with the gap behind it, and no gap with the word behind it, so as long as there is a gap
between any two words the text is scanned as these words, at the places where they were written.

## Main result
- `Source.tokens_of_written`: the tokens of a text that is written from words.
-/

namespace LambdaReader

open Lexicon Lexeme TokenSource

namespace Lexeme

/-! ## Spellings and what they stand for -/

/-- The characters spell a word of that kind. A string goes from a quote to the first one that is not
escaped. -/
def IsSpelled : TokenKind → List Char → Prop
  | .number, run => isNumeral run = true
  | .string, run => ∃ body, Unquoted body ∧ run = stringQuote :: (body ++ [stringQuote])
  | .keyword, run => isWord run = true ∧ isKeyword (String.ofList run) = true
  | .identifier, run => isWord run = true ∧ isKeyword (String.ofList run) = false
  | .punctuation, run => ∃ c, run = [c] ∧ isPunctuation c = true
  | .operator, run => isSymbol run = true

/-- The characters without their escape marks. What stands behind an escape mark counts as it is. -/
def unescape : List Char → List Char
  | [] => []
  | c :: rest =>
    if c = escapeMark then
      match rest with
      | [] => []
      | e :: rest => e :: unescape rest
    else c :: unescape rest

/-- What a word stands for: a number for a float, a string for what is between its quotes, every other
word for itself. -/
def value? : TokenKind → List Char → Option Value
  | .number, run => (Decimal.ofNumeral? run).map fun d => .number d.toFloat
  | .string, run => some (.text (String.ofList (unescape (run.drop 1).dropLast)))
  | _, run => some (.text (String.ofList run))

theorem unescape_escaped (c : Char) (cs : List Char) :
    unescape (escapeMark :: c :: cs) = c :: unescape cs := by
  rw [unescape.eq_def]
  simp

theorem unescape_plain {c : Char} (hc : c ≠ escapeMark) (cs : List Char) :
    unescape (c :: cs) = c :: unescape cs := by
  rw [unescape.eq_def]
  simp [hc]

/-- A string is closed by the first quote behind characters without a bare one. -/
theorem Unquoted.ofBody_quote {cs : List Char} (h : Unquoted cs) (rest : List Char) :
    Literal.ofBody (· = stringQuote) (cs ++ stringQuote :: rest) =
      ⟨cs ++ [stringQuote], unescape cs, true⟩ := by
  induction h with
  | nil => exact ofBody_close (by decide) (by decide) rest
  | plain hescape hquote _ ih =>
    rw [List.cons_append, ofBody_plain hescape (by simpa using hquote), ih, unescape_plain hescape]
    rfl
  | escaped _ ih =>
    rw [List.cons_append, List.cons_append, ofBody_escape, ih, unescape_escaped]
    rfl

variable {kind : TokenKind} {run rest gap : List Char}

/-- What is spelled as a word is a lexeme with the value of that word, and closed if it is a string. -/
theorem IsSpelled.denotes (h : IsSpelled kind run) :
    ∃ v, value? kind run = some v ∧ Denotes kind run v ∧
      (kind = .string → (Literal.ofFront (· = stringQuote) run).closed = true) := by
  cases kind with
  | number =>
    have hnum : isNumeral run = true := h
    obtain ⟨d, hd⟩ := ofNumeral?_isSome hnum
    exact ⟨_, by rw [value?, hd]; rfl, .number hnum hd, TokenKind.noConfusion⟩
  | string =>
    obtain ⟨body, hbody, rfl⟩ := h
    have hfound := hbody.ofBody_quote []
    refine ⟨_, rfl, ?_, fun _ => ?_⟩
    · rw [List.drop_one, List.tail_cons, List.dropLast_concat]
      exact .string hfound
    · rw [Literal.ofFront, hfound]
      rfl
  | keyword => exact ⟨_, rfl, .keyword h.1 h.2, TokenKind.noConfusion⟩
  | identifier => exact ⟨_, rfl, .identifier h.1 h.2, TokenKind.noConfusion⟩
  | punctuation =>
    obtain ⟨c, rfl, hc⟩ := h
    exact ⟨_, rfl, .punctuation hc, TokenKind.noConfusion⟩
  | operator => exact ⟨_, rfl, .operator h, TokenKind.noConfusion⟩

/-- Blanks and comments go on with no lexeme. -/
theorem stops_of_gap (hgap : Gap gap) (hend : gap = [] → rest = [])
    (hclosed : kind = .string → (Literal.ofFront (· = stringQuote) run).closed = true) :
    Stops kind run (gap ++ rest) := by
  have hnone : (commentMark :: blanks).all (fun c => !isDigit c && c != point &&
      !isIdentifierChar c && !isOperatorChar c) = true := by decide
  refine stops_of_head (fun c hc => ?_) hclosed
  have hmem : c ∈ commentMark :: blanks := by
    cases hgap with
    | nil =>
      rw [hend rfl] at hc
      cases hc
    | blank hblank =>
      obtain rfl := Option.some.inj hc
      exact List.mem_cons_of_mem _ (by simpa only [isBlank, List.contains_iff_mem] using hblank)
    | comment =>
      obtain rfl := Option.some.inj hc
      exact List.mem_cons_self
  have hall := List.all_eq_true.mp hnone c hmem
  simpa [Bool.and_eq_true, and_assoc] using hall

end Lexeme

/-! ## Texts written from words -/

/-- A word and the gap that is written behind it. -/
structure Written where
  kind : TokenKind
  run : List Char
  gap : List Char
  isSpelled : IsSpelled kind run
  isGap : Gap gap

namespace Written

/-- The words with their gaps, one behind the other. -/
def text (ws : List Written) : List Char := ws.flatMap fun w => w.run ++ w.gap

theorem text_cons (w : Written) (ws : List Written) : text (w :: ws) = w.run ++ (w.gap ++ text ws) := by
  rw [text, List.flatMap_cons, List.append_assoc, ← text]

/-- Any two words have something between them. -/
def Separate (ws : List Written) : Prop := ∀ w ∈ ws.dropLast, w.gap ≠ []

theorem Separate.tail {w : Written} {ws : List Written} (h : Separate (w :: ws)) : Separate ws := by
  intro u hu
  cases ws with
  | nil => cases hu
  | cons v ws => exact h u (List.mem_cons_of_mem w hu)

/-- Only the last word may have nothing behind it. -/
theorem Separate.text_eq_nil {w : Written} {ws : List Written} (h : Separate (w :: ws))
    (hgap : w.gap = []) : text ws = [] := by
  cases ws with
  | nil => rfl
  | cons v ws => exact absurd hgap (h w List.mem_cons_self)

/-- The token is that word. -/
structure IsToken (w : Written) (t : Token) : Prop where
  kind : t.kind = w.kind
  lexeme : t.lexeme = String.ofList w.run
  value : value? w.kind w.run = some t.value

end Written

open Written

/-- What is written behind a gap is scanned word by word. -/
theorem Scanner.drain_of_written {file : String} {ws : List Written} (hws : Separate ws)
    {before gap : List Char} (hgap : Gap gap) {s : Scanner} (hs : s.cursor.rest = gap ++ text ws)
    (hl : s.location = .behind file before) :
    ∃ ts l, drain s = (ts, .done l) ∧ ts.length = ws.length ∧
      ∀ i (hi : i < ws.length), ∃ t, ts[i]? = some t ∧ ws[i].IsToken t ∧
        t.location = .behind file (before ++ gap ++ text (ws.take i)) := by
  induction ws generalizing before gap s with
  | nil =>
    have hrest : s.cursor.rest = gap := hs.trans (List.append_nil gap)
    have htrivia : triviaRun false s.cursor.rest = gap := by
      rw [hrest]
      exact (Trivia.gap hgap).triviaRun_eq
    have hscan : readNext s = .ok none (s.after gap) := by
      rw [readNext_apply, htrivia, after_rest, hrest, List.drop_length]
    exact ⟨[], _, drain_none hscan, rfl, nofun⟩
  | cons w ws ih =>
    rw [text_cons] at hs
    obtain ⟨v, hv, hd, hclosed⟩ := w.isSpelled.denotes
    have hstop := stops_of_gap w.isGap hws.text_eq_nil hclosed
    have hrest : ((s.after gap).after w.run).cursor.rest = w.gap ++ text ws := by
      rw [after_rest, after_rest, hs, List.drop_left, List.drop_left]
    have hlocation : (s.after gap).location = .behind file (before ++ gap) := by
      rw [after_location, hl, Location.behind, Location.behind, Location.advance_append]
    have hlocation' : ((s.after gap).after w.run).location = .behind file (before ++ gap ++ w.run) := by
      rw [after_location, hlocation, Location.behind, Location.behind, ← Location.advance_append]
    obtain ⟨ts, l, hdrain, hlength, hts⟩ := ih hws.tail w.isGap hrest hlocation'
    let t : Token := ⟨w.kind, String.ofList w.run, v, (s.after gap).location⟩
    refine ⟨t :: ts, l, ?_, congrArg Nat.succ hlength, fun i hi => ?_⟩
    · rw [drain_some (readNext_lexeme hgap hd hstop hs), hdrain]
    · cases i with
      | zero =>
        refine ⟨t, rfl, ⟨rfl, rfl, hv⟩, ?_⟩
        rw [List.take_zero, text, List.flatMap_nil, List.append_nil]
        exact hlocation
      | succ i =>
        obtain ⟨u, hu, htoken, hplace⟩ := hts i (Nat.lt_of_succ_lt_succ hi)
        refine ⟨u, hu, htoken, ?_⟩
        rw [hplace, List.take_succ_cons, text_cons]
        simp only [List.append_assoc]

/-- Words with gaps between them are scanned into one token each, in their order, at the places where they
were written. -/
theorem Source.tokens_of_written (file : String) (strict : Bool) {front : List Char}
    (hfront : Gap front) {ws : List Written} (hws : Separate ws) :
    ∃ ts, (⟨String.ofList (front ++ Written.text ws), file, strict⟩ : Source).tokens = .ok ts ∧
      ts.length = ws.length ∧
      ∀ i (hi : i < ws.length), ∃ t, ts[i]? = some t ∧ ws[i].IsToken t ∧
        t.location = .behind file (front ++ Written.text (ws.take i)) ∧
        t.location.offset = (front ++ Written.text (ws.take i)).length := by
  have hs : (Source.scanner ⟨String.ofList (front ++ Written.text ws), file, strict⟩).cursor.rest =
      front ++ Written.text ws := String.toList_ofList
  have hl : (Source.scanner ⟨String.ofList (front ++ Written.text ws), file, strict⟩).location =
      .behind file [] := rfl
  obtain ⟨ts, l, hdrain, hlength, hts⟩ := Scanner.drain_of_written hws hfront hs hl
  refine ⟨ts, by rw [Source.tokens_eq, hdrain], hlength, fun i hi => ?_⟩
  obtain ⟨t, ht, htoken, hplace⟩ := hts i hi
  rw [List.nil_append] at hplace
  refine ⟨t, ht, htoken, hplace, ?_⟩
  rw [hplace, Location.behind_offset]

/-- Inside a string a comment mark and an escaped quote are text, and a comment may hold a quote. -/
theorem Source.tokens_of_written_string :
    let s : Source := ⟨"#\"\nif\t.5 \"a\\\"# b\"#\n==", "x", true⟩
    ∃ ts t, s.tokens = .ok ts ∧ ts.length = 4 ∧ ts[2]? = some t ∧ t.kind = .string ∧
      t.lexeme = "\"a\\\"# b\"" ∧ t.value = .text "a\"# b" ∧ t.location = ⟨"x", 2, 6, 9⟩ := by
  intro s
  have hfront : Gap ['#', '"', '\n'] := @Gap.comment ['"'] [] (by simp) .nil
  have hbody : Unquoted ['a', '\\', '"', '#', ' ', 'b'] :=
    .plain (by decide) (by decide) <| .escaped <| .plain (by decide) (by decide) <|
      .plain (by decide) (by decide) <| .plain (by decide) (by decide) .nil
  let ws : List Written :=
    [⟨.keyword, ['i', 'f'], ['\t'], ⟨by decide, by decide⟩, .blank (by decide) .nil⟩,
      ⟨.number, ['.', '5'], [' '], (by decide : isNumeral _ = true), .blank (by decide) .nil⟩,
      ⟨.string, _, ['#', '\n'], ⟨_, hbody, rfl⟩, @Gap.comment [] [] nofun .nil⟩,
      ⟨.operator, ['=', '='], [], (by decide : isSymbol _ = true), .nil⟩]
  have hws : Separate ws := by simp [Separate, ws]
  obtain ⟨ts, hts, hlength, hall⟩ := Source.tokens_of_written "x" true hfront hws
  obtain ⟨t, ht, ⟨hkind, hlexeme, hvalue⟩, hplace, -⟩ := hall 2 (show 2 < 4 by decide)
  exact ⟨ts, t, hts, hlength, ht, hkind, hlexeme, (Option.some.inj hvalue).symm, hplace⟩

end LambdaReader

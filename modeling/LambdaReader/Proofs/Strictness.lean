import LambdaReader.Proofs.Blame
import LambdaReader.Proofs.Requests

/-!
# `Proofs.Strictness` — strict and lenient reading of strings

Whether strings have to be closed makes no difference until a scanner stands before a string that is
never closed. The strict one fails there, and the lenient one reads that string up to the end of the text
as its last token. A parser may fail by the grammar before it asks for that token, and then it fails alike
in both; otherwise the failure of the strict scanner is all that can differ.

`Compares` relates the outcomes of one scan, `drain_lenient` those of all scans.

## Main result
- `Source.strict_and_lenient`: the tokens and the program of a text, read strictly and leniently.
-/

namespace LambdaReader

open TokenSource

/-! ## One scan -/

namespace Scanner

open Lexicon Step

/-- The scanner with strings that need not be closed. -/
def lenient (s : Scanner) : Scanner := { s with strict := false }

@[simp] theorem lenient_cursor (s : Scanner) : s.lenient.cursor = s.cursor := rfl

/-- The same outcome, with strings that need not be closed from then on. -/
def lenience {α : Type} : EStateM.Result Failure Scanner α → EStateM.Result Failure Scanner α
  | .ok a s => .ok a s.lenient
  | .error e s => .error e s.lenient

/-- The token is a string that goes up to the end of the text. -/
structure LeftOpen (s : Scanner) (t : Token) : Prop where
  kind : t.kind = .string
  place : ∃ front, s.cursor.rest = front ++ t.lexeme.toList ∧ t.location = s.location.advance front

/-- How the outcomes of a strict and of a lenient scan compare: they are the same, or the strict scan
fails at a string that is never closed and the lenient one gives it. -/
inductive Compares (s : Scanner) {α : Type} (give : Token → α) :
    EStateM.Result Failure Scanner α → EStateM.Result Failure Scanner α → Prop where
  | same {r : EStateM.Result Failure Scanner α} : Compares s give r (lenience r)
  | opened {t : Token} {s' s'' : Scanner} : s.LeftOpen t → s''.cursor.rest = [] →
      Compares s give (.error (.lexical .openString t.location) s') (.ok (give t) s'')

variable {s s' : Scanner} {t : Token}

theorem LeftOpen.of_after {run : List Char} (h : (s.after run).LeftOpen t)
    (hrun : run <+: s.cursor.rest) : s.LeftOpen t := by
  obtain ⟨front, hrest, hlocation⟩ := h.place
  obtain ⟨tail, htail⟩ := hrun
  refine ⟨h.kind, run ++ front, ?_, ?_⟩
  · rw [after_rest, ← htail, List.drop_left] at hrest
    rw [← htail, hrest, List.append_assoc]
  · rw [hlocation, after_location, Location.advance_append]

theorem readNumber_lenient (s : Scanner) : readNumber s.lenient = lenience (readNumber s) := by
  simp only [readNumber, bind_apply, get_apply, take_apply, lenient_cursor]
  by_cases hpoint : numeralRun s.cursor.rest = [point]
  · rw [if_pos hpoint, if_pos hpoint]
    rfl
  · rw [if_neg hpoint, if_neg hpoint]
    cases Decimal.ofNumeral? (numeralRun s.cursor.rest) <;> rfl

/-- A string that is closed is read in either way; one that is not is the rest of the text. -/
theorem readString_compares (s : Scanner) : s.Compares id (readString s) (readString s.lenient) := by
  obtain ⟨cursor, strict⟩ := s
  cases hclosed : (Literal.ofFront (· = stringQuote) cursor.rest).closed with
  | true =>
    have hsame : readString (lenient ⟨cursor, strict⟩) = lenience (readString ⟨cursor, strict⟩) := by
      simp only [readString, readLiteral, lenient, bind_apply, get_apply, hclosed]
      rfl
    rw [hsame]
    exact .same
  | false =>
    have hraw := Literal.raw_ofFront_of_open hclosed
    cases strict with
    | false =>
      have hsame : readString (lenient ⟨cursor, false⟩) = lenience (readString ⟨cursor, false⟩) := by
        simp only [readString, readLiteral, lenient, bind_apply, get_apply, hclosed]
        rfl
      rw [hsame]
      exact .same
    | true =>
      simp only [readString, readLiteral, lenient, bind_apply, get_apply, hclosed]
      refine @Compares.opened _ _ _ ⟨.string, _, _, cursor.location⟩ _ _ ⟨rfl, [], ?_, rfl⟩ ?_
      · rw [String.toList_ofList, hraw]
        rfl
      · show List.drop _ _ = []
        rw [hraw, List.drop_length]

/-- Only strings are read in two ways. -/
theorem readToken_compares (c : Char) (s : Scanner) :
    s.Compares id (readToken c s) (readToken c s.lenient) := by
  unfold readToken
  by_cases hquote : c = stringQuote
  · rw [if_pos hquote]
    exact readString_compares s
  rw [if_neg hquote]
  by_cases hnumber : isDigit c = true ∨ c = point
  · rw [if_pos hnumber, readNumber_lenient]
    exact .same
  rw [if_neg hnumber]
  by_cases hword : isIdentifierStart c = true
  · rw [if_pos hword]
    exact .same
  rw [if_neg hword]
  by_cases hpunctuation : isPunctuation c = true
  · rw [if_pos hpunctuation]
    exact .same
  rw [if_neg hpunctuation]
  by_cases hop : isOperatorChar c = true
  · rw [if_pos hop]
    exact .same
  rw [if_neg hop]
  exact .same

theorem readNext_compares (s : Scanner) : s.Compares some (readNext s) (readNext s.lenient) := by
  have hprefix : triviaRun false s.cursor.rest <+: s.cursor.rest := triviaRun_isPrefix _ _
  -- Both stand behind the same blanks and comments.
  have hbehind : s.lenient.after (triviaRun false s.lenient.cursor.rest) =
      (s.after (triviaRun false s.cursor.rest)).lenient := rfl
  rw [readNext_apply, readNext_apply, hbehind, lenient_cursor]
  cases hrest : (s.after (triviaRun false s.cursor.rest)).cursor.rest with
  | nil => exact .same
  | cons c cs =>
    have htoken := readToken_compares c (s.after (triviaRun false s.cursor.rest))
    dsimp only
    generalize readToken c (s.after (triviaRun false s.cursor.rest)) = r at htoken ⊢
    generalize readToken c (s.after (triviaRun false s.cursor.rest)).lenient = r' at htoken ⊢
    cases htoken with
    | same =>
      cases r with
      | ok t s' => exact .same
      | error e s' => exact .same
    | opened hopen hend => exact .opened (hopen.of_after hprefix) hend

/-! ## All scans -/

/-- A lenient scanner gives what the strict one gives, and the string that stops the strict one if there
is such a string. -/
theorem drain_lenient (s : Scanner) : drain s.lenient = drain s ∨
    ∃ t l, (drain s).2 = .failed (.lexical .openString t.location) ∧
      drain s.lenient = ((drain s).1 ++ [t], .done l) ∧ s.LeftOpen t := by
  refine drain_induction (P := fun s d => drain s.lenient = d ∨
    ∃ t l, d.2 = .failed (.lexical .openString t.location) ∧
      drain s.lenient = (d.1 ++ [t], .done l) ∧ s.LeftOpen t) ?token ?done ?failed s
  case token =>
    intro s s' t hscan ih
    have hstep := readNext_compares s
    rw [show readNext s = _ from hscan] at hstep
    generalize hlenient : readNext s.lenient = r at hstep
    cases hstep with
    | same =>
      rw [drain_some hlenient]
      obtain hsame | ⟨u, l, hfailed, hmore, hopen⟩ := ih
      · exact .inl (by rw [hsame])
      · obtain ⟨run, hrun, -, -, rfl⟩ := readNext_some hscan
        refine .inr ⟨u, l, hfailed, by rw [hmore, List.cons_append], ?_⟩
        exact (hopen.of_after hrun).of_after (triviaRun_isPrefix _ _)
  case done =>
    intro s s' hscan
    have hstep := readNext_compares s
    rw [show readNext s = _ from hscan] at hstep
    generalize hlenient : readNext s.lenient = r at hstep
    cases hstep with
    | same =>
      have hend : scan s.lenient = .ok none s'.lenient := hlenient
      exact .inl (by rw [drain_none hend]; rfl)
  case failed =>
    intro s s' f hscan
    have hstep := readNext_compares s
    rw [show readNext s = _ from hscan] at hstep
    generalize hlenient : readNext s.lenient = r at hstep
    cases hstep with
    | same => exact .inl (drain_error hlenient)
    | @opened t _ s'' hopen hend =>
      refine .inr ⟨t, s''.location, rfl, ?_, hopen⟩
      rw [drain_some hlenient, drain_none (readNext_of_nil hend)]
      rfl

/-- A string stops a strict scanner only. -/
theorem strict_of_drain (s : Scanner) :
    ∀ l, (drain s).2 = .failed (.lexical .openString l) → s.strict = true := by
  refine drain_induction (P := fun s d => ∀ l, d.2 = .failed (.lexical .openString l) → s.strict = true)
    ?token ?done ?failed s
  case token =>
    intro s s' t hscan ih
    obtain ⟨_, -, -, -, rfl⟩ := readNext_some hscan
    exact ih
  case done => intro s s' _ l hl; cases hl
  case failed =>
    intro s s' f hscan l hl
    cases hl
    obtain ⟨cause, _, hcause, hstrict⟩ := readNext_error hscan
    cases hcause
    exact hstrict rfl

end Scanner

/-! ## Codes and places of failures -/

/-- The failure is reported with that code at that place. -/
def Failure.Coded (e : Failure) (code : String) (l : Location) : Prop :=
  ∃ f, e.fault? = .ok f ∧ f.code.map ErrorCode.text = some code ∧ f.location = l

theorem Failure.coded_lexical {cause : LexicalCause} {l l' : Location} {code : String} :
    (lexical cause l).Coded code l' ↔ cause.code.text = code ∧ l = l' := by
  rw [Coded, fault?_lexical]
  constructor
  · rintro ⟨_, ⟨⟩, hcode, hplace⟩
    exact ⟨Option.some.inj hcode, hplace⟩
  · rintro ⟨hcode, hplace⟩
    exact ⟨_, rfl, congrArg some hcode, hplace⟩

theorem LexicalCause.eq_openString {cause : LexicalCause} (h : cause.code.text = "L002") :
    cause = .openString := by
  have hother : "L001" ≠ "L002" := by decide
  cases cause with
  | openString => rfl
  | strayCharacter | lonePoint => exact absurd h hother

/-! ## Texts read in both ways -/

namespace Source

/-- A text with strings that have to be closed. -/
abbrev strictly (text file : String) : Source := ⟨text, file, true⟩

/-- A text with strings that may go on to its end. -/
abbrev leniently (text file : String) : Source := ⟨text, file, false⟩

/-- The tokens are the same in both ways, or a string that is never closed stops strict reading and is the
last token of lenient reading. -/
inductive Agrees (text file : String) : Prop where
  | same : drain (leniently text file).scanner = drain (strictly text file).scanner →
      (∀ l, (drain (strictly text file).scanner).2 ≠ .failed (.lexical .openString l)) → Agrees text file
  | opened {ts : List Token} {t : Token} {l : Location} {front : List Char} :
      drain (strictly text file).scanner = (ts, .failed (.lexical .openString t.location)) →
      drain (leniently text file).scanner = (ts ++ [t], .done l) → t.kind = .string →
      text.toList = front ++ t.lexeme.toList → t.location = .behind file front → Agrees text file

theorem agrees (text file : String) : Agrees text file := by
  obtain hsame | ⟨t, l, hfailed, hmore, hopen⟩ := (strictly text file).scanner.drain_lenient
  · refine .same hsame fun l hl => ?_
    have hstrict := Scanner.strict_of_drain _ l ((congrArg Prod.snd hsame).trans hl)
    cases hstrict
  · obtain ⟨front, htext, hlocation⟩ := hopen.place
    exact .opened (Prod.ext rfl hfailed) hmore hopen.kind htext hlocation

variable {o : ParseOptions}

/-- What the parser makes of a text is the same in both ways, unless a string is to blame. -/
theorem parse_leniently (text file : String) : (leniently text file).parse o = (strictly text file).parse o ∨
    ∃ l, (strictly text file).parse o = .error (.lexical .openString l) := by
  cases agrees text file with
  | same hsame _ =>
    left
    rw [parse_eq_parseRecorded, parse_eq_parseRecorded, parseRecorded, parseRecorded, Replay.ofSource,
      Replay.ofSource, hsame]
    rfl
  | @opened ts t l front hstrict hlenient _ _ _ =>
    have htokens : (strictly text file).tokens = .error (.lexical .openString t.location) := by
      rw [tokens_eq, hstrict]
    have houtcome := parse_of_tokens (strictly text file) o
    rw [htokens, hstrict] at houtcome
    obtain ⟨-, hasks, hstops⟩ := houtcome
    by_cases hbeyond : Replay.AsksBeyond o ts (.start file)
    · exact .inr ⟨_, hasks hbeyond⟩
    · -- The parser stops at a token that stands before the string in both.
      obtain ⟨cause, u, -, hparse, -⟩ := hstops hbeyond
      have hfile : (leniently text file).file = (strictly text file).file := rfl
      have hfront : (drain (strictly text file).scanner).1 = ts ++ [] := by rw [hstrict, List.append_nil]
      have hfront' : (drain (leniently text file).scanner).1 = ts ++ [t] := by rw [hlenient]
      exact .inl ((parse_of_shared hfile hfront hfront' List.not_mem_nil hparse rfl).trans hparse.symm)

/-- Strict and lenient reading of a text. What strict reading succeeds with, lenient reading gives as well,
and so it does for a failure at a character. Where strict reading fails at a string, lenient reading gives
the tokens before it, which are all that strict reading can be asked for, and then that string up to the
end of the text. Where lenient reading succeeds, strict reading succeeds or fails at a string. Parsing has
the same outcome in both ways, unless it fails at a string in strict reading. -/
theorem strict_and_lenient (text file : String) :
    (∀ ts, (strictly text file).tokens = .ok ts → (leniently text file).tokens = .ok ts) ∧
    (∀ e l, (strictly text file).tokens = .error e → e.Coded "L001" l →
      (leniently text file).tokens = .error e) ∧
    (∀ e l, (strictly text file).tokens = .error e → e.Coded "L002" l → ∃ ts t front,
      (leniently text file).tokens = .ok (ts ++ [t]) ∧ t.kind = .string ∧ t.location = l ∧
      text.toList = front ++ t.lexeme.toList ∧ l = .behind file front ∧
      ∀ rs, (Lookahead.ofSource (strictly text file).scanner).answers rs =
        Tape.answers ⟨ts, some e⟩ 0 rs) ∧
    (∀ ts, (leniently text file).tokens = .ok ts → (strictly text file).tokens = .ok ts ∨
      ∃ e l, (strictly text file).tokens = .error e ∧ e.Coded "L002" l) ∧
    (∀ o n, (strictly text file).parse o = .ok n → (leniently text file).parse o = .ok n) ∧
    (∀ o e, (strictly text file).parse o = .error e → (∀ l, ¬ e.Coded "L002" l) →
      (leniently text file).parse o = .error e) := by
  have hparse (o : ParseOptions) (x : Except Failure Node) (h : (strictly text file).parse o = x)
      (hx : ∀ l, x ≠ .error (.lexical .openString l)) : (leniently text file).parse o = x := by
    obtain hsame | ⟨l, hopen⟩ := parse_leniently text file
    · exact hsame.trans h
    · exact absurd (h.symm.trans hopen) (hx l)
  have hcoded (l : Location) : (Failure.lexical .openString l).Coded "L002" l :=
    Failure.coded_lexical.mpr ⟨rfl, rfl⟩
  have hprograms : (∀ o n, (strictly text file).parse o = .ok n → (leniently text file).parse o = .ok n) ∧
      (∀ o e, (strictly text file).parse o = .error e → (∀ l, ¬ e.Coded "L002" l) →
        (leniently text file).parse o = .error e) := by
    refine ⟨fun o n h => hparse o _ h nofun, fun o e h hcode => hparse o _ h fun l hl => ?_⟩
    cases hl
    exact hcode l (hcoded l)
  cases agrees text file with
  | same hsame hfree =>
    have htokens : (leniently text file).tokens = (strictly text file).tokens := by
      rw [tokens_eq, tokens_eq, hsame]
    refine ⟨fun ts h => htokens.trans h, fun e l h _ => htokens.trans h, fun e l h hcode => ?_,
      fun ts h => .inl (htokens.symm.trans h), hprograms⟩
    -- A failure of that code is one at a string, which there is none of.
    have hfailed := failed_of_tokens h
    obtain ⟨cause, l', rfl⟩ := Scanner.drain_failed _ e hfailed
    cases LexicalCause.eq_openString (Failure.coded_lexical.mp hcode).1
    exact absurd hfailed (hfree l')
  | @opened ts t l front hstrict hlenient hkind htext hlocation =>
    have hfails : (strictly text file).tokens = .error (.lexical .openString t.location) := by
      rw [tokens_eq, hstrict]
    have hgives : (leniently text file).tokens = .ok (ts ++ [t]) := by
      rw [tokens_eq, hlenient]
    refine ⟨fun us h => ?_, fun e l' h hcode => ?_, fun e l' h hcode => ?_,
      fun us _ => .inr ⟨_, _, hfails, hcoded _⟩, hprograms⟩
    · cases hfails.symm.trans h
    · cases hfails.symm.trans h
      exact absurd (Failure.coded_lexical.mp hcode).1 (by decide)
    · cases hfails.symm.trans h
      obtain ⟨-, rfl⟩ := Failure.coded_lexical.mp hcode
      refine ⟨ts, t, front, hgives, hkind, rfl, htext, hlocation, fun rs => ?_⟩
      have htape : tape (strictly text file).scanner = ⟨ts, some (.lexical .openString t.location)⟩ := by
        rw [tape, hstrict]
      rw [(answers_to_requests (strictly text file)).2 rs, htape]

/-- A quote in a comment does not close a string, and behind a bracket that is never opened the parser does
not ask for the string. -/
theorem strict_and_lenient_bracket :
    let text := "a ) \"b\\\"\n# c"
    let e : Failure := .lexical .openString ⟨"x", 1, 4, 4⟩
    (strictly text "x").tokens = .error e ∧
    (∃ ts t, (leniently text "x").tokens = .ok (ts ++ [t]) ∧ t.lexeme = "\"b\\\"\n# c") ∧
    ∃ f, (strictly text "x").parse {} = .error f ∧ (leniently text "x").parse {} = .error f := by
  intro text e
  obtain ⟨-, -, hstring, -, -, hfails⟩ := strict_and_lenient text "x"
  have htokens : (strictly text "x").tokens = .error e := by decide +kernel
  obtain ⟨ts, t, front, hlenient, -, hplace, htext, hfront, -⟩ :=
    hstring e ⟨"x", 1, 4, 4⟩ htokens (Failure.coded_lexical.mpr ⟨rfl, rfl⟩)
  have hlength : front.length = 4 := by
    have hoffset := congrArg Location.offset hfront
    rw [Location.behind_offset] at hoffset
    exact Int.ofNat_inj.mp hoffset.symm
  have hlexeme : t.lexeme.toList = text.toList.drop 4 := by
    rw [htext, ← hlength, List.drop_left]
  let u : Token := .plain .punctuation ")" ⟨"x", 1, 2, 2⟩
  let f : Failure := .grammar (.expected .punctuation ";") (some u) ⟨"x", 1, 3, 3⟩
  have hparse : (strictly text "x").parse {} = .error f := parse_of_failure? (by decide +kernel)
  refine ⟨htokens, ⟨ts, t, hlenient, ?_⟩, f, hparse, hfails {} f hparse fun l hcode => ?_⟩
  · rw [← String.ofList_toList (s := t.lexeme), hlexeme]
    decide +kernel
  · obtain ⟨g, hg, htext, -⟩ := hcode
    rw [Failure.fault?_grammar] at hg
    cases hg
    exact absurd htext (by decide)

end Source
end LambdaReader

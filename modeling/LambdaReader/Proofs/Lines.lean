import LambdaReader.Proofs.Strictness
import LambdaReader.Proofs.Excerpt
import LambdaReader.Proofs.Positions

/-!
# `Proofs.Lines` — texts one below the other

A text whose strings are all closed can be read by itself, whatever stands in the lines below it. Blanks,
and a comment at its end, go up to the line feed and no further, and no token goes over it. What is read
from there on is read as if it were a text of its own, with every location moved down by the lines above.

## Main result
- `Source.tokens_below`: the tokens of two texts, the second in the lines below the first.
-/

namespace LambdaReader

open Lexicon Lexeme TokenSource Step

/-! ## Moved locations -/

namespace Location

/-- The map of locations does the same to two places that are one step apart. -/
def Uniform (f : Location → Location) : Prop := ∀ l c, f (l.step c) = (f l).step c

theorem Uniform.advance {f : Location → Location} (hf : Uniform f) (l : Location) (cs : List Char) :
    f (l.advance cs) = (f l).advance cs := by
  induction cs generalizing l with
  | nil => rfl
  | cons c cs ih => rw [advance_cons, ih, hf, advance_cons]

/-- The location in the lines below a text and a line feed. -/
def below (text : String) (l : Location) : Location :=
  { l with line := l.line + (text.toList.count '\n' + 1), offset := l.offset + (text.length + 1) }

theorem below_uniform (text : String) : Uniform (below text) := by
  intro l c
  by_cases hc : c = '\n'
  · simp only [step, if_pos hc, below, mk.injEq, true_and]
    omega
  · simp only [step, if_neg hc, below, mk.injEq, true_and]
    omega

/-- Below a text a file starts where the text and its line feed end. -/
theorem below_start (text file : String) :
    below text (start file) = (start file).advance (text.toList ++ ['\n']) := by
  rw [advance_append, advance_cons, advance_nil, step, if_pos rfl, advance_line, advance_file,
    advance_offset, String.length_toList]
  simp only [below, start, mk.injEq, true_and]
  omega

end Location

/-! ## The same text in another place -/

namespace Scanner

variable {f : Location → Location} {s s' : Scanner}

/-- The scanner in front of the same text in another place. -/
def relocate (f : Location → Location) (s : Scanner) : Scanner :=
  facing (f s.location) s.strict s.cursor.rest

/-- The outcome of a scan in another place. -/
def relocated {α : Type} (move : α → α) (f : Location → Location) :
    EStateM.Result Failure Scanner α → EStateM.Result Failure Scanner α
  | .ok a s => .ok (move a) (s.relocate f)
  | .error e s => .error (e.relocate f) (s.relocate f)

theorem after_relocate (hf : Location.Uniform f) (s : Scanner) (run : List Char) :
    (s.relocate f).after run = (s.after run).relocate f := by
  rw [relocate, relocate, after_location, hf.advance]
  rfl

theorem readNumber_relocate (hf : Location.Uniform f) (s : Scanner) :
    readNumber (s.relocate f) = relocated (Token.relocate f) f (readNumber s) := by
  have hrest : (s.relocate f).cursor.rest = s.cursor.rest := rfl
  simp only [readNumber, bind_apply, get_apply, take_apply, hrest, after_relocate hf]
  by_cases hpoint : numeralRun s.cursor.rest = [point]
  · rw [if_pos hpoint, if_pos hpoint]
    rfl
  · rw [if_neg hpoint, if_neg hpoint]
    cases Decimal.ofNumeral? (numeralRun s.cursor.rest) <;> rfl

theorem readLiteral_relocate (hf : Location.Uniform f) (closes : Char → Bool) (s : Scanner) :
    readLiteral closes (s.relocate f) = relocated id f (readLiteral closes s) := by
  have hafter := after_relocate hf s (Literal.ofFront closes s.cursor.rest).raw
  have hsame : readLiteral closes (s.relocate f) =
      let found := Literal.ofFront closes s.cursor.rest
      if !found.closed && s.strict then
        .error (.lexical .openString (f s.location)) ((s.relocate f).after found.raw)
      else .ok found ((s.relocate f).after found.raw) := rfl
  rw [hsame]
  dsimp only
  rw [hafter, readLiteral]
  split <;> rfl

theorem readString_relocate (hf : Location.Uniform f) (s : Scanner) :
    readString (s.relocate f) = relocated (Token.relocate f) f (readString s) := by
  simp only [readString, bind_apply, get_apply, readLiteral_relocate hf]
  cases readLiteral (· = stringQuote) s <;> rfl

/-- The stretches that are always read. -/
theorem take_relocate (hf : Location.Uniform f) (run : List Char → List Char) (s : Scanner) :
    take run (s.relocate f) = relocated id f (take run s) := by
  rw [take_apply, take_apply, after_relocate hf]
  rfl

theorem readToken_relocate (hf : Location.Uniform f) (c : Char) (s : Scanner) :
    readToken c (s.relocate f) = relocated (Token.relocate f) f (readToken c s) := by
  unfold readToken
  by_cases hquote : c = stringQuote
  · rw [if_pos hquote]
    exact readString_relocate hf s
  rw [if_neg hquote]
  by_cases hnumber : isDigit c = true ∨ c = point
  · rw [if_pos hnumber]
    exact readNumber_relocate hf s
  rw [if_neg hnumber]
  by_cases hword : isIdentifierStart c = true
  · rw [if_pos hword]
    simp only [readWord, readWhile, bind_apply, get_apply, take_relocate hf]
    rfl
  rw [if_neg hword]
  by_cases hmark : isPunctuation c = true
  · rw [if_pos hmark]
    simp only [readPunctuation_eq, bind_apply, get_apply, take_relocate hf]
    rfl
  rw [if_neg hmark]
  by_cases hop : isOperatorChar c = true
  · rw [if_pos hop]
    simp only [readOperator, readWhile, bind_apply, get_apply, take_relocate hf]
    rfl
  rw [if_neg hop]
  rfl

theorem readNext_relocate (hf : Location.Uniform f) (s : Scanner) :
    readNext (s.relocate f) = relocated (Option.map (Token.relocate f)) f (readNext s) := by
  have hbehind : (s.relocate f).after (triviaRun false (s.relocate f).cursor.rest) =
      (s.after (triviaRun false s.cursor.rest)).relocate f := after_relocate hf s _
  rw [readNext_apply, readNext_apply, hbehind]
  generalize s.after (triviaRun false s.cursor.rest) = s'
  rw [show (s'.relocate f).cursor.rest = s'.cursor.rest from rfl]
  cases s'.cursor.rest with
  | nil => rfl
  | cons c cs =>
    dsimp only
    rw [readToken_relocate hf]
    cases readToken c s' <;> rfl

end Scanner

/-- The ending in another place. -/
def Ending.relocate (f : Location → Location) : Ending → Ending
  | done l => done (f l)
  | failed e => failed (e.relocate f)

namespace Scanner

variable {f : Location → Location}

/-- In another place a text has the same tokens there, and ends alike. -/
theorem drain_relocate (hf : Location.Uniform f) (s : Scanner) :
    drain (s.relocate f) = ((drain s).1.map (Token.relocate f), (drain s).2.relocate f) := by
  refine drain_induction (P := fun s d =>
    drain (s.relocate f) = (d.1.map (Token.relocate f), d.2.relocate f)) ?token ?done ?failed s
  case token =>
    intro s s' t hscan ih
    have hmoved : scan (s.relocate f) = .ok (some (t.relocate f)) (s'.relocate f) :=
      (readNext_relocate hf s).trans (congrArg _ hscan)
    rw [drain_some hmoved, ih, List.map_cons]
  case done =>
    intro s s' hscan
    have hmoved : scan (s.relocate f) = .ok none (s'.relocate f) :=
      (readNext_relocate hf s).trans (congrArg _ hscan)
    rw [drain_none hmoved]
    rfl
  case failed =>
    intro s s' e hscan
    have hmoved : scan (s.relocate f) = .error (e.relocate f) (s'.relocate f) :=
      (readNext_relocate hf s).trans (congrArg _ hscan)
    rw [drain_error hmoved]
    rfl

end Scanner

/-! ## Up to a line feed -/

/-- Trivia that goes up to a line feed is a gap with it. -/
theorem Lexeme.Gap.append {gap gap' : List Char} (h : Gap gap) (h' : Gap gap') : Gap (gap ++ gap') := by
  induction h with
  | nil => exact h'
  | blank hc _ ih => exact .blank hc ih
  | @comment line cs hline _ ih =>
    rw [List.cons_append, List.append_assoc, List.cons_append]
    exact .comment hline ih

theorem Lexeme.Trivia.lineFeed {cs : List Char} (h : Trivia cs) : Gap (cs ++ ['\n']) := by
  have hfeed : Gap ['\n'] := .blank (by decide) .nil
  cases h with
  | gap hgap => exact hgap.append hfeed
  | comment hgap hline =>
    rw [List.append_assoc]
    exact hgap.append (.comment hline .nil)

/-- A line feed goes on with no token but with a string that is open. -/
theorem Token.Fits.lineFeed {t : Token} {rest : List Char} (h : t.Fits true rest) (strict : Bool)
    (below : List Char) : t.Fits strict (rest ++ '\n' :: below) where
  isLexeme := h.isLexeme
  stops := by
    obtain hstops | ⟨-, hstrict, -⟩ := h.stops
    · left
      cases rest with
      | nil =>
        refine stops_of_head ?_ fun hstring => ?_
        · rintro c ⟨⟩
          decide
        · rw [hstring] at hstops
          exact hstops
      | cons c rest =>
        generalize t.kind = kind at hstops
        cases kind <;> exact hstops
    · cases hstrict

namespace Scanner

variable {l : Location} {cs : List Char} {ts : List Token}

/-- Sources with the same next scan have the same tokens. -/
theorem drain_congr {s s' : Scanner} (h : readNext s = readNext s') : drain s = drain s' := by
  have h : scan s = scan s' := h
  cases hscan : scan s' with
  | error e s'' => rw [drain_error (h.trans hscan), drain_error hscan]
  | ok found s'' =>
    cases found with
    | none => rw [drain_none (h.trans hscan), drain_none hscan]
    | some t => rw [drain_some (h.trans hscan), drain_some hscan]

/-- Behind a gap the text is read as it is without the gap. -/
theorem drain_gap {gap : List Char} (hgap : Gap gap) (l : Location) (strict : Bool) (cs : List Char) :
    drain (facing l strict (gap ++ cs)) = drain (facing (l.advance gap) strict cs) := by
  have hafter : (facing l strict (gap ++ cs)).after (triviaRun false (gap ++ cs)) =
      (facing (l.advance gap) strict cs).after (triviaRun false cs) := by
    obtain ⟨rest, hrest⟩ := triviaRun_isPrefix false cs
    generalize hrun : triviaRun false cs = run at hrest
    rw [triviaRun_gap hgap, hrun, ← hrest, ← List.append_assoc, after_facing, after_facing,
      Location.advance_append]
  refine drain_congr ?_
  rw [readNext_apply, readNext_apply, hafter]

/-- A text without tokens that is read to its end is trivia. -/
theorem trivia_of_drain {finish : Location} (h : drain (facing l true cs) = ([], .done finish)) :
    Trivia cs := by
  rcases exists_gap cs with htrivia | ⟨gap, c, rest, rfl, hgap, hblank, hmark⟩
  · exact htrivia
  · -- Whatever else stands there would be a token, or would stop the scan.
    have htrivia : triviaRun false (gap ++ c :: rest) = gap := by
      rw [triviaRun_gap hgap, triviaRun]
      simp [hblank, hmark]
    have hscan := @readNext_facing l true gap rest c htrivia
    cases htoken : readToken c (facing (l.advance gap) true (c :: rest)) with
    | ok t s' =>
      rw [htoken] at hscan
      rw [drain_some hscan] at h
      cases h
    | error e s' =>
      rw [htoken] at hscan
      rw [drain_error hscan] at h
      cases h

/-- Above other lines a closed text has its tokens, and behind them stand those of the other lines. -/
theorem drain_above {finish : Location} (h : drain (facing l true cs) = (ts, .done finish))
    (strict : Bool) (below : List Char) :
    drain (facing l strict (cs ++ '\n' :: below)) =
      (ts ++ (drain (facing (l.advance (cs ++ ['\n'])) strict below)).1,
        (drain (facing (l.advance (cs ++ ['\n'])) strict below)).2) := by
  induction ts generalizing l cs with
  | nil =>
    have hgap := drain_gap (trivia_of_drain h).lineFeed l strict below
    rwa [List.append_assoc] at hgap
  | cons t ts ih =>
    obtain ⟨gap, rest, hgap, rfl, hlocation, hfits, hdrain⟩ := readNext_of_drain h
    have hscan : readNext (facing l strict (gap ++ (t.lexeme.toList ++ (rest ++ '\n' :: below)))) =
        .ok (some t) (facing t.stop strict (rest ++ '\n' :: below)) := by
      rw [readNext_of_fits hgap (hfits.lineFeed strict below), ← hlocation]
      rfl
    have hplace : t.stop.advance (rest ++ ['\n']) =
        l.advance (gap ++ (t.lexeme.toList ++ rest) ++ ['\n']) := by
      simp only [Token.stop, hlocation, Location.advance_append]
    rw [List.append_assoc, List.append_assoc, drain_some hscan, ih hdrain, hplace, List.cons_append]

end Scanner

/-! ## The result -/

namespace Source

/-- Scanning is local to lines of closed text. Where strict reading succeeds with a text, the tokens of that
text with another one in the lines below it are those of the text and then those of the other one, with
their locations moved down. If the other one cannot be scanned, neither can both together, for the same
cause, at the location moved down. -/
theorem tokens_below {text file : String} {ts : List Token} (h : (strictly text file).tokens = .ok ts)
    (text' : String) (strict : Bool) :
    (∀ us, Source.tokens ⟨text', file, strict⟩ = .ok us →
      Source.tokens ⟨text ++ "\n" ++ text', file, strict⟩ =
        .ok (ts ++ us.map (Token.relocate (Location.below text)))) ∧
    (∀ e, Source.tokens ⟨text', file, strict⟩ = .error e → ∃ cause l, e = .lexical cause l ∧
      Source.tokens ⟨text ++ "\n" ++ text', file, strict⟩ = .error (.lexical cause (l.below text))) := by
  obtain ⟨hts, finish, hdone⟩ := drain_of_tokens h
  have hclosed : drain (Scanner.facing (.start file) true text.toList) = (ts, .done finish) :=
    Prod.ext hts hdone
  have hbelow : Scanner.facing ((Location.start file).advance (text.toList ++ ['\n'])) strict text'.toList =
      (scanner ⟨text', file, strict⟩).relocate (Location.below text) := by
    rw [← Location.below_start]
    rfl
  have htext : (text ++ "\n" ++ text').toList = text.toList ++ '\n' :: text'.toList := by
    simp
  have hdrain : drain (scanner ⟨text ++ "\n" ++ text', file, strict⟩) =
      (ts ++ (drain (scanner ⟨text', file, strict⟩)).1.map (Token.relocate (Location.below text)),
        (drain (scanner ⟨text', file, strict⟩)).2.relocate (Location.below text)) := by
    have habove := Scanner.drain_above hclosed strict text'.toList
    rw [← htext, hbelow, Scanner.drain_relocate (Location.below_uniform text)] at habove
    exact habove
  constructor
  · intro us hus
    obtain ⟨rfl, l, hl⟩ := drain_of_tokens hus
    rw [tokens_eq, hdrain, hl]
    rfl
  · intro e he
    have hfailed := failed_of_tokens he
    obtain ⟨cause, l, rfl⟩ := Scanner.drain_failed _ e hfailed
    refine ⟨cause, l, rfl, ?_⟩
    rw [tokens_eq, hdrain, hfailed]
    rfl

/-- A comment without a line feed, a number's point and a run of operator characters end with the text;
below it an open string is read, or refused. -/
theorem tokens_below_comment :
    let text := "x <\n1. # \""
    let ts : List Token := [.plain .identifier "x" ⟨"f", 1, 0, 0⟩, .plain .operator "<" ⟨"f", 1, 2, 2⟩,
      ⟨.number, "1.", .number 1, ⟨"f", 2, 0, 4⟩⟩]
    (strictly text "f").tokens = .ok ts ∧
    Source.tokens ⟨text ++ "\n" ++ "\"a", "f", false⟩ =
      .ok (ts ++ [⟨.string, "\"a", .text "a", ⟨"f", 3, 0, 11⟩⟩]) ∧
    Source.tokens ⟨text ++ "\n" ++ "\"a", "f", true⟩ = .error (.lexical .openString ⟨"f", 3, 0, 11⟩) := by
  intro text ts
  have h : (strictly text "f").tokens = .ok ts := by decide +kernel
  have hplace : Location.below text (.start "f") = ⟨"f", 3, 0, 11⟩ := by decide +kernel
  refine ⟨h, ?_, ?_⟩
  · have htokens := (tokens_below h "\"a" false).1 [⟨.string, "\"a", .text "a", .start "f"⟩]
      (by decide +kernel)
    rwa [List.map_singleton, Token.relocate, hplace] at htokens
  · obtain ⟨cause, l, hcause, hfails⟩ :=
      (tokens_below h "\"a" true).2 (.lexical .openString (.start "f")) (by decide +kernel)
    cases hcause
    rwa [hplace] at hfails

end Source
end LambdaReader

import LambdaReader.Cursor
import LambdaReader.Failure
import LambdaReader.Lexicon

/-!
# `Scanner` — from characters to tokens

A scanner reads the longest stretch of text in the class that the next character opens: a string, a
number, an identifier or keyword, one mark of punctuation, or a run of operator characters. Blanks and
comments before it are passed over. Reading fails at a character that opens nothing, at a point
without a digit beside it and, in strict reading, at a string that is never closed.

## Contents
- the stretches as functions on the text ahead: `numeralRun`, `Literal`, `triviaRun`, `lineRun`, each
  shown to stand at the front;
- `Scanner`, `ScanM` and the readers of each class;
- `readToken` and `readNext`.
-/

namespace LambdaReader

open Lexicon

/-! ## Stretches of text -/

/-- The digits at the front with at most one point among or beside them. -/
def numeralRun (cs : List Char) : List Char :=
  match cs.dropWhile isDigit with
  | [] => cs.takeWhile isDigit
  | c :: rest =>
    if c = point then cs.takeWhile isDigit ++ c :: rest.takeWhile isDigit else cs.takeWhile isDigit

/-- A delimited text as it was found. -/
structure Literal where
  /-- All characters read. -/
  raw : List Char
  /-- The characters between the delimiters, without the escape marks. -/
  value : List Char
  /-- The closing delimiter was found. -/
  closed : Bool
deriving DecidableEq

namespace Literal

/-- One more character in front that counts for the value. -/
def push (c : Char) (l : Literal) : Literal := { l with raw := c :: l.raw, value := c :: l.value }

/-- One more character in front that does not. -/
def mark (c : Char) (l : Literal) : Literal := { l with raw := c :: l.raw }

/-- What follows the opening delimiter. A character after an escape mark counts as it is; without a
closing delimiter everything is read. -/
def ofBody (closes : Char → Bool) : List Char → Literal
  | [] => ⟨[], [], false⟩
  | c :: rest =>
    if c = escapeMark then
      match rest with
      | [] => ⟨[c], [], false⟩
      | e :: rest => ((ofBody closes rest).push e).mark c
    else if closes c then ⟨[c], [], true⟩
    else (ofBody closes rest).push c

/-- The delimited text at the front, whatever its first character is. -/
def ofFront (closes : Char → Bool) : List Char → Literal
  | [] => ⟨[], [], false⟩
  | c :: rest => (ofBody closes rest).mark c

end Literal

/-- The blanks and comments at the front; the flag tells that a comment is open. A comment ends with
its line, the line feed included. -/
def triviaRun : Bool → List Char → List Char
  | _, [] => []
  | true, c :: rest => c :: triviaRun (c ≠ '\n') rest
  | false, c :: rest =>
    if isBlank c then c :: triviaRun false rest
    else if c = commentMark then c :: triviaRun true rest
    else []

/-- The rest of the line with its line feed. -/
def lineRun (cs : List Char) : List Char :=
  cs.takeWhile (· ≠ '\n') ++ (cs.dropWhile (· ≠ '\n')).take 1

/-! ### Every stretch stands at the front -/

theorem numeralRun_isPrefix (cs : List Char) : numeralRun cs <+: cs := by
  unfold numeralRun
  have h := List.takeWhile_append_dropWhile (p := isDigit) (l := cs)
  split
  · exact List.takeWhile_prefix _
  · next c rest hd =>
    split
    · obtain ⟨t, ht⟩ := List.takeWhile_prefix (l := rest) isDigit
      refine ⟨t, ?_⟩
      rw [List.append_assoc, List.cons_append, ht, ← hd, h]
    · exact List.takeWhile_prefix _

theorem triviaRun_isPrefix (inComment : Bool) (cs : List Char) : triviaRun inComment cs <+: cs := by
  fun_induction triviaRun inComment cs with
  | case1 => exact List.nil_prefix
  | case2 c rest ih => exact (List.prefix_cons_inj c).mpr ih
  | case3 c rest _ ih => exact (List.prefix_cons_inj c).mpr ih
  | case4 rest _ ih => exact (List.prefix_cons_inj _).mpr ih
  | case5 => exact List.nil_prefix

theorem lineRun_isPrefix (cs : List Char) : lineRun cs <+: cs := by
  obtain ⟨t, ht⟩ := List.take_prefix 1 (cs.dropWhile (· ≠ '\n'))
  refine ⟨t, ?_⟩
  rw [lineRun, List.append_assoc, ht, List.takeWhile_append_dropWhile]

namespace Literal

theorem raw_ofBody_isPrefix (closes : Char → Bool) (cs : List Char) : (ofBody closes cs).raw <+: cs := by
  fun_induction ofBody closes cs with
  | case1 => exact List.nil_prefix
  | case2 => exact List.prefix_rfl
  | case3 e rest ih =>
    exact (List.prefix_cons_inj _).mpr ((List.prefix_cons_inj _).mpr ih)
  | case4 c rest => exact (List.prefix_cons_inj c).mpr List.nil_prefix
  | case5 c rest _ _ ih => exact (List.prefix_cons_inj c).mpr ih

/-- The characters of a literal stand at the front. -/
theorem raw_ofFront_isPrefix (closes : Char → Bool) (cs : List Char) :
    (ofFront closes cs).raw <+: cs := by
  cases cs with
  | nil => exact List.nil_prefix
  | cons c rest => exact (List.prefix_cons_inj c).mpr (raw_ofBody_isPrefix closes rest)

/-- A literal without closing delimiter takes everything. -/
theorem raw_ofBody_of_open {closes : Char → Bool} {cs : List Char}
    (h : (ofBody closes cs).closed = false) : (ofBody closes cs).raw = cs := by
  fun_induction ofBody closes cs with
  | case1 => rfl
  | case2 => rfl
  | case3 e rest ih => simp_all [push, mark]
  | case4 => simp at h
  | case5 c rest _ _ ih => simp_all [push]

theorem raw_ofFront_of_open {closes : Char → Bool} {cs : List Char}
    (h : (ofFront closes cs).closed = false) : (ofFront closes cs).raw = cs := by
  cases cs with
  | nil => rfl
  | cons c rest => exact congrArg (c :: ·) (raw_ofBody_of_open h)

end Literal

/-! ## Readers -/

/-- A cursor with the way strings are read. -/
structure Scanner where
  cursor : Cursor
  /-- A string without closing quote is refused. -/
  strict : Bool
deriving DecidableEq

/-- Steps of a scanner, which may fail. -/
abbrev ScanM := EStateM Failure Scanner

namespace Scanner

/-- A scanner at the start of a text. -/
def ofText (text file : String) (strict : Bool) : Scanner := ⟨.ofText text file, strict⟩

/-- The location of the next character. -/
def location (s : Scanner) : Location := s.cursor.location

/-- Fails for a cause at a location. -/
def fail {α : Type} (cause : LexicalCause) (location : Location) : ScanM α :=
  throw (.lexical cause location)

/-- Reads the stretch that `run` finds at the front. -/
def take (run : List Char → List Char) : ScanM (List Char) := fun s =>
  let found := run s.cursor.rest
  .ok found { s with cursor := s.cursor.consume found }

/-- Reads the next character, if there is one. -/
def readChar : ScanM (Option Char) := fun s =>
  .ok s.cursor.next.1 { s with cursor := s.cursor.next.2 }

/-- One character is a stretch by itself; at the end there is none. -/
theorem toList_readChar : Option.toList <$> readChar = take (·.take 1) := by
  funext s
  obtain ⟨⟨l, rest⟩, strict⟩ := s
  cases rest with
  | nil => rfl
  | cons c rest => rfl

/-- A stretch at the front is taken by reading its characters one after the other. -/
theorem take_eq_read {run : List Char → List Char} {s : Scanner}
    (h : run s.cursor.rest <+: s.cursor.rest) :
    take run s = .ok (s.cursor.read (run s.cursor.rest).length).1
      { s with cursor := (s.cursor.read (run s.cursor.rest).length).2 } := by
  rw [Cursor.read_of_isPrefix h]
  rfl

/-- Reads as long as the characters are in a class. -/
def readWhile (isIn : Char → Bool) : ScanM String := do
  return String.ofList (← take (·.takeWhile isIn))

/-- Reads a number. -/
def readNumber : ScanM Token := do
  let start := (← get).location
  let found ← take numeralRun
  if found = [point] then fail .lonePoint start
  else
    match Decimal.ofNumeral? found with
    | some d => return ⟨.number, String.ofList found, .number d.toFloat, start⟩
    | none => throw (.misuse (.notANumeral (String.ofList found)))

/-- Reads an identifier or keyword. -/
def readWord : ScanM Token := do
  let start := (← get).location
  let word ← readWhile isIdentifierChar
  return .plain (if isKeyword word then .keyword else .identifier) word start

/-- Reads a delimited text, whatever its first character is. -/
def readLiteral (closes : Char → Bool) : ScanM Literal := fun s =>
  let found := Literal.ofFront closes s.cursor.rest
  let after := { s with cursor := s.cursor.consume found.raw }
  if !found.closed && s.strict then .error (.lexical .openString s.location) after
  else .ok found after

/-- A delimited text is read one character after the other, whether it is closed or not. -/
theorem readLiteral_eq_read (closes : Char → Bool) (s : Scanner) :
    let found := Literal.ofFront closes s.cursor.rest
    let after := { s with cursor := (s.cursor.read found.raw.length).2 }
    readLiteral closes s = (if !found.closed && s.strict then .error (.lexical .openString s.location) after
      else .ok found after) ∧ (s.cursor.read found.raw.length).1 = found.raw := by
  dsimp only
  rw [Cursor.read_of_isPrefix (Literal.raw_ofFront_isPrefix closes s.cursor.rest)]
  exact ⟨rfl, rfl⟩

/-- Reads the value of a delimited text. -/
def readEscaped (closes : Char → Bool) : ScanM String := do
  return String.ofList (← readLiteral closes).value

/-- Reads a string. -/
def readString : ScanM Token := do
  let start := (← get).location
  let found ← readLiteral (· = stringQuote)
  return ⟨.string, String.ofList found.raw, .text (String.ofList found.value), start⟩

/-- Passes over the rest of the line. -/
def skipLine : ScanM Unit := do
  let _ ← take lineRun

/-- Reads one mark of punctuation. -/
def readPunctuation : ScanM Token := do
  let start := (← get).location
  return .plain .punctuation (String.ofList (← readChar).toList) start

theorem readPunctuation_eq : readPunctuation = do
    let start := (← get).location
    return .plain .punctuation (String.ofList (← take (·.take 1))) start := by
  rw [← toList_readChar]
  simp only [readPunctuation, map_eq_pure_bind, bind_assoc, pure_bind]

/-- Reads a run of operator characters. -/
def readOperator : ScanM Token := do
  let start := (← get).location
  return .plain .operator (← readWhile isOperatorChar) start

/-- Reads the token that starts with the character `c`, which is the next one. -/
def readToken (c : Char) : ScanM Token :=
  if c = stringQuote then readString
  else if isDigit c ∨ c = point then readNumber
  else if isIdentifierStart c then readWord
  else if isPunctuation c then readPunctuation
  else if isOperatorChar c then readOperator
  else do fail (.strayCharacter c) (← get).location

/-- Reads the next token, if there is one. -/
def readNext : ScanM (Option Token) := do
  let _ ← take (triviaRun false)
  match (← get).cursor.peek with
  | none => return none
  | some c => return some (← readToken c)

end Scanner
end LambdaReader

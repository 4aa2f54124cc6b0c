import LambdaReader.Text.Quoted

/-!
# `Location` — places in a source text

A location names a file and a place in it: the line (the first is 1), the column (the first is 0) and
the offset from the start, all counted in characters. Scanning one character moves a location by one
step; a line feed starts a new line.

## Contents
- `Location`, its start, steps and texts;
- `Span`, the locations of the first and of the last token of a piece of source.
-/

namespace LambdaReader

/-- A place in a named source text. -/
structure Location where
  file : String
  /-- Counted from 1. -/
  line : Int
  /-- Counted from 0. -/
  column : Int
  /-- Characters before this place. -/
  offset : Int
deriving DecidableEq

namespace Location

/-- Stands for a file without a name. -/
def unknownFile : String := "<unknown>"

/-- The first character of a file. -/
def start (file : String) : Location := ⟨file, 1, 0, 0⟩

/-- The place after one character. -/
def step (l : Location) (c : Char) : Location :=
  if c = '\n' then { l with line := l.line + 1, column := 0, offset := l.offset + 1 }
  else { l with column := l.column + 1, offset := l.offset + 1 }

/-- The place after a run of characters. -/
def advance (l : Location) (cs : List Char) : Location := cs.foldl step l

@[simp] theorem advance_nil (l : Location) : l.advance [] = l := rfl

@[simp] theorem advance_cons (l : Location) (c : Char) (cs : List Char) :
    l.advance (c :: cs) = (l.step c).advance cs := rfl

theorem advance_append (l : Location) (cs ds : List Char) :
    l.advance (cs ++ ds) = (l.advance cs).advance ds :=
  List.foldl_append

@[simp] theorem step_file (l : Location) (c : Char) : (l.step c).file = l.file := by
  unfold step; split <;> rfl

@[simp] theorem step_offset (l : Location) (c : Char) : (l.step c).offset = l.offset + 1 := by
  unfold step; split <;> rfl

/-- Scanning never leaves the file. -/
@[simp] theorem advance_file (l : Location) (cs : List Char) : (l.advance cs).file = l.file := by
  induction cs generalizing l with
  | nil => rfl
  | cons c cs ih => simp [ih]

/-- The offset counts the characters scanned. -/
@[simp] theorem advance_offset (l : Location) (cs : List Char) :
    (l.advance cs).offset = l.offset + cs.length := by
  induction cs generalizing l with
  | nil => simp
  | cons c cs ih => simp [ih]; omega

/-- File, line and column, separated by colons. -/
def text (l : Location) : String :=
  l.file ++ ":" ++ toString l.line ++ ":" ++ toString l.column

/-- All four parts, the file in quotes. -/
def render (l : Location) : String :=
  "SourceLocation(" ++ Text.quoted l.file ++ ", " ++ toString l.line ++ ", " ++ toString l.column
    ++ ", " ++ toString l.offset ++ ")"

end Location

/-- The piece of source from the first token at `first` to the last token, which starts at `last`. -/
structure Span where
  first : Location
  last : Location
deriving DecidableEq

namespace Span

/-- The file is named once if both ends lie in it. -/
def text (s : Span) : String :=
  if s.first.file = s.last.file then
    s.first.text ++ "-" ++ toString s.last.line ++ ":" ++ toString s.last.column
  else s.first.text ++ "-" ++ s.last.text

end Span

end LambdaReader

import LambdaReader.Location

/-!
# `Cursor` — a place in a text together with what is left to read

A cursor moves over a text one character at a time and knows the location of the next character. At the
end it stays where it is.

## Contents
- `Cursor`, `ofText`, `peek`, `next`, `atEnd`;
- `read`, several characters one after the other;
- `consume`, moving over a run of characters at once, which is reading them (`read_of_isPrefix`);
- `render`, the text of a cursor.
-/

namespace LambdaReader

/-- A place in a text. -/
structure Cursor where
  /-- The next character's place. -/
  location : Location
  /-- The characters from there on. -/
  rest : List Char
deriving DecidableEq

namespace Cursor

/-- The start of a text. -/
def ofText (text file : String) : Cursor := ⟨.start file, text.toList⟩

/-- The next character, if there is one. -/
def peek (c : Cursor) : Option Char := c.rest.head?

/-- Whether nothing is left. -/
def atEnd (c : Cursor) : Bool := c.rest.isEmpty

/-- The next character, if there is one, and the cursor behind it. -/
def next (c : Cursor) : Option Char × Cursor :=
  match c.rest with
  | [] => (none, c)
  | d :: rest => (some d, ⟨c.location.step d, rest⟩)

/-- The next `n` characters, or as many as there are, and the cursor behind them. -/
def read (c : Cursor) : Nat → List Char × Cursor
  | 0 => ([], c)
  | n + 1 =>
    match c.next with
    | (none, c) => ([], c)
    | (some d, c) => (d :: (c.read n).1, (c.read n).2)

/-- Moves over a run of characters that the rest starts with. -/
def consume (c : Cursor) (run : List Char) : Cursor :=
  ⟨c.location.advance run, c.rest.drop run.length⟩

@[simp] theorem consume_nil (c : Cursor) : c.consume [] = c := rfl

/-- Moving over a run leaves what stands behind it. -/
theorem consume_append (l : Location) (run rest : List Char) :
    (⟨l, run ++ rest⟩ : Cursor).consume run = ⟨l.advance run, rest⟩ := by
  simp [consume]

/-- What is given is what was to be seen. -/
theorem next_fst (c : Cursor) : c.next.1 = c.peek := by
  obtain ⟨l, rest⟩ := c
  cases rest with
  | nil => rfl
  | cons d rest => rfl

theorem atEnd_eq (c : Cursor) : c.atEnd = c.peek.isNone := by
  obtain ⟨l, rest⟩ := c
  cases rest with
  | nil => rfl
  | cons d rest => rfl

/-- At the end nothing is given, and a cursor stays where it is. -/
theorem next_of_atEnd {c : Cursor} (h : c.atEnd = true) : c.next = (none, c) := by
  obtain ⟨l, rest⟩ := c
  obtain rfl : rest = [] := List.isEmpty_iff.mp h
  rfl

theorem read_eq (c : Cursor) (n : Nat) : c.read n = (c.rest.take n, c.consume (c.rest.take n)) := by
  induction n generalizing c with
  | zero => rfl
  | succ n ih =>
    obtain ⟨l, rest⟩ := c
    cases rest with
    | nil => rfl
    | cons d rest => simp [read, next, ih, consume]

/-- Moving over a run at once is reading its characters one after the other. -/
theorem read_of_isPrefix {c : Cursor} {run : List Char} (h : run <+: c.rest) :
    c.read run.length = (run, c.consume run) := by
  rw [read_eq, ← List.prefix_iff_eq_take.mp h]

/-- File, offset, line and column. -/
def render (c : Cursor) : String :=
  "InputStream(" ++ Text.quoted c.location.file ++ ", pos=" ++ toString c.location.offset
    ++ ", line=" ++ toString c.location.line ++ ", column=" ++ toString c.location.column ++ ")"

end Cursor
end LambdaReader

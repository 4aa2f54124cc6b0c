import LambdaReader.Text.Printable

/-!
# `Text.Quoted` — text between quotes, on one line and without hidden characters

A text is written between two quotes of one sort: apostrophes, unless it holds an apostrophe and no
double quote. Inside, the quote in use, the backslash and every character that is not printable are
escaped; all else stands for itself.

## Contents
- `hexDigits`, a number in hexadecimal with a least width;
- `escape`, the written form of one character;
- `encode` and `quoted`, the written form of a text.
-/

namespace LambdaReader
namespace Text

/-- The last `width` hexadecimal digits of `n`, lower case, with leading zeros. -/
def hexDigits (n : Nat) : Nat → List Char
  | 0 => []
  | width + 1 => hexDigits (n / 16) width ++ [Nat.digitChar (n % 16)]

/-- The escape of a character by its code point: two, four or eight hexadecimal digits. -/
def codeEscape (c : Char) : List Char :=
  if c.toNat < 0x100 then '\\' :: 'x' :: hexDigits c.toNat 2
  else if c.toNat < 0x10000 then '\\' :: 'u' :: hexDigits c.toNat 4
  else '\\' :: 'U' :: hexDigits c.toNat 8

/-- One character as it stands between two `quote`s. -/
def escape (quote c : Char) : List Char :=
  if c = '\\' ∨ c = quote then ['\\', c]
  else if c = '\n' then ['\\', 'n']
  else if c = '\r' then ['\\', 'r']
  else if c = '\t' then ['\\', 't']
  else if isPrintable c then [c]
  else codeEscape c

/-- The quote a text is written between: double only to spare the escapes of its apostrophes. -/
def quoteOf (cs : List Char) : Char :=
  if '\'' ∈ cs ∧ '"' ∉ cs then '"' else '\''

/-- A text between its quotes, as characters. -/
def encode (cs : List Char) : List Char :=
  quoteOf cs :: (cs.flatMap (escape (quoteOf cs)) ++ [quoteOf cs])

/-- A text between its quotes. -/
def quoted (s : String) : String :=
  String.ofList (encode s.toList)

/-! ## The choice of quote and the escapes -/

example : encode ['a'] = ['\'', 'a', '\''] := by decide
example : encode ['\''] = ['"', '\'', '"'] := by decide
example : encode ['\'', '"'] = ['\'', '\\', '\'', '"', '\''] := by decide
example : encode ['\n', '\\'] = ['\'', '\\', 'n', '\\', '\\', '\''] := by decide
example : encode ['\x7f'] = ['\'', '\\', 'x', '7', 'f', '\''] := by decide

end Text
end LambdaReader

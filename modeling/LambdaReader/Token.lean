import LambdaReader.Location
import LambdaReader.Datum
import LambdaReader.Decimal.Shortest

/-!
# `Token` — the words of a source text

A token has a kind, the text it was scanned from, the value that text stands for, and the location of
its first character. A number stands for a float, a string for the text between its quotes, every
other token for itself.

## Contents
- `TokenKind` and its names;
- `Value`, what a token stands for;
- `Token`, with `stop`, the location just after it, and its texts and data.
-/

namespace LambdaReader

/-! ## Kinds -/

/-- The kinds of token. -/
inductive TokenKind where
  | number
  | string
  | keyword
  | identifier
  | punctuation
  | operator
deriving DecidableEq

namespace TokenKind

/-- All kinds. -/
def all : List TokenKind := [number, string, keyword, identifier, punctuation, operator]

/-- The short tag a kind has in data. -/
def tag : TokenKind → String
  | number => "num"
  | string => "str"
  | keyword => "kw"
  | identifier => "var"
  | punctuation => "punc"
  | operator => "op"

/-- The tag in capitals, as tokens are shown with it. -/
def name : TokenKind → String
  | number => "NUM"
  | string => "STR"
  | keyword => "KW"
  | identifier => "VAR"
  | punctuation => "PUNC"
  | operator => "OP"

/-- The kind in words. -/
def words : TokenKind → String
  | number => "number"
  | string => "string"
  | keyword => "keyword"
  | identifier => "variable"
  | punctuation => "punctuation"
  | operator => "operator"

/-- The kind with a tag. -/
def ofTag? (tag : String) : Option TokenKind := all.find? fun k => k.tag == tag

theorem ofTag?_tag (k : TokenKind) : ofTag? k.tag = some k := by cases k <;> decide

end TokenKind

/-! ## Values -/

/-- What a token stands for. -/
inductive Value where
  | number (value : Float)
  | integer (value : Int)
  | text (value : String)
deriving DecidableEq

namespace Value

/-- Numbers in digits, text in quotes. -/
def render : Value → String
  | number x => Decimal.floatText x
  | integer n => toString n
  | text s => Text.quoted s

/-- The value as data. -/
def toDatum : Value → Datum
  | number x => .number x
  | integer n => .integer n
  | text s => .text s

end Value

/-! ## Tokens -/

/-- A word of a source text. -/
structure Token where
  kind : TokenKind
  /-- The characters it was scanned from. -/
  lexeme : String
  value : Value
  /-- Its first character. -/
  location : Location
deriving DecidableEq

namespace Token

/-- The location just after the token. -/
def stop (t : Token) : Location := t.location.advance t.lexeme.toList

/-- A token that stands for itself. -/
def plain (kind : TokenKind) (lexeme : String) (location : Location) : Token :=
  ⟨kind, lexeme, .text lexeme, location⟩

/-- The token stands for exactly this text. -/
def hasText (t : Token) (s : String) : Bool :=
  match t.value with
  | .text u => u == s
  | _ => false

/-- The text the token stands for, its own characters if it stands for a number. -/
def text (t : Token) : String :=
  match t.value with
  | .text s => s
  | _ => t.lexeme

/-- The number the token stands for, if any. -/
def number? (t : Token) : Option Float :=
  match t.value with
  | .number x => some x
  | .integer n => some (Decimal.toFloat ⟨n.natAbs, 0⟩ * (if n < 0 then -1 else 1))
  | .text s => Decimal.readFloat? s.toList

/-- Kind and lexeme, and the value where it is not the lexeme itself. -/
def brief (t : Token) : String :=
  if t.hasText t.lexeme then t.kind.name ++ "(" ++ Text.quoted t.lexeme ++ ")"
  else t.kind.name ++ "(" ++ Text.quoted t.lexeme ++ " -> " ++ t.value.render ++ ")"

/-- All four parts of the token. -/
def render (t : Token) : String :=
  "Token(" ++ t.kind.name ++ ", " ++ Text.quoted t.lexeme ++ ", " ++ t.value.render ++ ", "
    ++ t.location.render ++ ")"

/-- The token as messages name it. -/
def describe (t : Token) : String := t.kind.tag ++ " " ++ Text.quoted t.lexeme

/-- The token as messages name it; its absence is the end of the input. -/
def describe? : Option Token → String
  | some t => t.describe
  | none => "end of input"

/-- Kind and value as data. -/
def toDatum (t : Token) : Datum := .record [("type", .text t.kind.tag), ("value", t.value.toDatum)]

end Token
end LambdaReader

import LambdaReader.Fault
import LambdaReader.Lexicon

/-!
# `Failure` — why reading a source text stops

Scanning and parsing fail by a cause, at a location, and parsing also with the token it was looking
at. Each cause knows its wording, its code and its help; `Failure.fault?` puts them together.

## Contents
- `LexicalCause`, what scanning can meet;
- `GrammarCause`, what parsing can meet, and `suggestClosing`;
- `Failure` and `Failure.fault?`.
-/

namespace LambdaReader

/-! ## Scanning -/

/-- Why scanning stops. -/
inductive LexicalCause where
  /-- No token starts with this character. -/
  | strayCharacter (c : Char)
  /-- A point without a digit on either side. -/
  | lonePoint
  /-- A string without its closing quote. -/
  | openString
deriving DecidableEq

namespace LexicalCause

/-- The wording of a cause. -/
def message : LexicalCause → String
  | strayCharacter c => "Can't handle character: " ++ Text.quoted (String.singleton c)
  | lonePoint => "Can't handle character: " ++ Text.quoted (String.singleton Lexicon.point)
  | openString => "Unterminated string literal"

/-- The code of a cause. -/
def code : LexicalCause → ErrorCode
  | strayCharacter _ | lonePoint => .strayCharacter
  | openString => .openString

/-- What could be done about it. -/
def help : LexicalCause → Option String
  | strayCharacter c =>
    some ("The character " ++ Text.quoted (String.singleton c) ++ " cannot start a token.")
  | lonePoint => none
  | openString => some "String literals must be closed with a matching \" quote."

/-- All that a fault with this cause carries. -/
def details (cause : LexicalCause) : Fault.Details := ⟨some cause.code.text, cause.help, none⟩

end LexicalCause

/-! ## Parsing -/

/-- How to mend a missing mark of punctuation. -/
def suggestClosing (expected : String) : List String :=
  match expected with
  | ")" => ["Add a closing parenthesis ')'"]
  | "\x7d" => ["Add a closing brace '\x7d'"]
  | "]" => ["Add a closing bracket ']'"]
  | ";" => ["Separate expressions with ';'"]
  | "," => ["Separate items with ','"]
  | _ => []

/-- Why parsing stops. -/
inductive GrammarCause where
  /-- Another token had to come here. -/
  | expected (kind : TokenKind) (text : String)
  /-- No expression starts here. -/
  | unexpected
  /-- A parameter has to be a variable. -/
  | notAVariable
  /-- The tree would be nested deeper than the limit. -/
  | tooDeep (limit : Int)
deriving DecidableEq

namespace GrammarCause

/-- The wording of a cause that was met at a token or at the end of the input. -/
def message (found : Option Token) : GrammarCause → String
  | expected kind text => "Expecting " ++ kind.words ++ ": " ++ Text.quoted text
  | unexpected =>
    match found with
    | none => "Unexpected end of input"
    | some t => "Unexpected token: " ++ t.describe
  | notAVariable => "Expecting variable name"
  | tooDeep limit => "Maximum nesting depth exceeded (" ++ toString limit ++ ")"

/-- The code of a cause. -/
def code : GrammarCause → ErrorCode
  | expected _ _ => .missingToken
  | unexpected => .unexpectedToken
  | notAVariable => .notAVariable
  | tooDeep _ => .tooDeep

/-- Only missing punctuation comes with suggestions, be they none. -/
def suggestions : GrammarCause → Option (List String)
  | expected .punctuation text => some (suggestClosing text)
  | _ => none

/-- All that a fault with this cause carries. -/
def details (cause : GrammarCause) : Fault.Details := ⟨some cause.code.text, none, cause.suggestions⟩

end GrammarCause

/-! ## Both -/

/-- Why reading stops. -/
inductive Failure where
  | lexical (cause : LexicalCause) (location : Location)
  | grammar (cause : GrammarCause) (found : Option Token) (location : Location)
  | misuse (misuse : Misuse)
deriving DecidableEq

namespace Failure

/-- The fault to report. -/
def fault? : Failure → Except Misuse Fault
  | lexical cause location => Fault.make? .lexical cause.message location cause.details none
  | grammar cause found location =>
    Fault.make? .grammar (cause.message found) location cause.details found
  | misuse m => .error m

/-- Every cause has a code of its family. -/
theorem fault?_lexical (cause : LexicalCause) (location : Location) :
    (lexical cause location).fault? =
      .ok ⟨.lexical, cause.message, location, some cause.code, cause.help, none, none⟩ := by
  cases cause <;> rfl

theorem fault?_grammar (cause : GrammarCause) (found : Option Token) (location : Location) :
    (grammar cause found location).fault? =
      .ok ⟨.grammar, cause.message found, location, some cause.code, none, cause.suggestions,
        found⟩ := by
  cases cause <;> rfl

end Failure
end LambdaReader

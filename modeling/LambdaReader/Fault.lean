import LambdaReader.Diagnostic
import LambdaReader.Token

/-!
# `Fault` — reports of bad source text

A fault is a message anchored at a location. Faults come in families, and each family has its own
codes: a fault cannot be made with a code of another family. Making one with a code that its family
does not know is a misuse, as are the other demands on values that are not there.

## Contents
- `ErrorCode`, `FaultFamily` and the table of codes of each family;
- `Misuse`, what a caller can do wrong;
- `Fault`, `Fault.make?` and the texts of a fault.
-/

namespace LambdaReader

/-! ## Codes and families -/

/-- The kinds of fault that have a code. -/
inductive ErrorCode where
  | strayCharacter
  | openString
  | unexpectedToken
  | missingToken
  | notAVariable
  | tooDeep
deriving DecidableEq

namespace ErrorCode

/-- The code as it is written. -/
def text : ErrorCode → String
  | strayCharacter => "L001"
  | openString => "L002"
  | unexpectedToken => "P001"
  | missingToken => "P002"
  | notAVariable => "P003"
  | tooDeep => "P004"

/-- The code in words. -/
def category : ErrorCode → String
  | strayCharacter => "Unhandled character"
  | openString => "Unterminated string literal"
  | unexpectedToken => "Unexpected token"
  | missingToken => "Expected token not found"
  | notAVariable => "Expected variable name"
  | tooDeep => "Maximum nesting depth exceeded"

end ErrorCode

/-- Where a fault belongs: to the text as such, to scanning, or to the grammar. -/
inductive FaultFamily where
  | source
  | lexical
  | grammar
deriving DecidableEq

namespace FaultFamily

/-- The name of a family. -/
def name : FaultFamily → String
  | source => "SourceError"
  | lexical => "LexerError"
  | grammar => "ParseError"

/-- The family with a name. -/
def ofName? (name : String) : Option FaultFamily :=
  [source, lexical, grammar].find? fun f => f.name == name

/-- The codes of a family, in the order of their texts. -/
def codes : FaultFamily → List ErrorCode
  | source | lexical => [.strayCharacter, .openString]
  | grammar => [.unexpectedToken, .missingToken, .notAVariable, .tooDeep]

/-- The code of a family with a text. -/
def code? (family : FaultFamily) (text : String) : Option ErrorCode :=
  family.codes.find? fun c => c.text == text

end FaultFamily

/-! ## Misuse -/

/-- Demands that cannot be met; none of them is a fault of the source text. -/
inductive Misuse where
  /-- The text is no numeral. -/
  | notANumeral (text : String)
  /-- The family has no code of that text. -/
  | unknownCode (family : FaultFamily) (code : String)
  /-- There is no token to take a part of. -/
  | absentToken
  /-- There is no span to take an end of. -/
  | absentSpan
deriving DecidableEq

/-- The wording of a misuse. -/
def Misuse.message : Misuse → String
  | notANumeral text => "could not convert string to float: " ++ Text.quoted text
  | unknownCode family code => "Unknown error code for " ++ family.name ++ ": " ++ Text.quoted code
  | absentToken => "no token"
  | absentSpan => "no span"

/-! ## Faults -/

/-- What a fault may carry besides its message. -/
structure Fault.Details where
  code : Option String := none
  help : Option String := none
  suggestions : Option (List String) := none
deriving DecidableEq

/-- A report of bad source text. -/
structure Fault where
  family : FaultFamily
  message : String
  location : Location
  code : Option ErrorCode
  help : Option String
  suggestions : Option (List String)
  /-- The token at fault, if there was one. -/
  token : Option Token
deriving DecidableEq

namespace Fault

/-- Makes a fault, checking its code against its family. -/
def make? (family : FaultFamily) (message : String) (location : Location) (details : Details)
    (token : Option Token) : Except Misuse Fault :=
  match details.code with
  | none => .ok ⟨family, message, location, none, details.help, details.suggestions, token⟩
  | some text =>
    match family.code? text with
    | some code =>
      .ok ⟨family, message, location, some code, details.help, details.suggestions, token⟩
    | none => .error (.unknownCode family text)

/-- The message followed by line and column. -/
def text (f : Fault) : String :=
  f.message ++ " (" ++ toString f.location.line ++ ":" ++ toString f.location.column ++ ")"

/-- The fault as a diagnostic of severity `error`. -/
def diagnostic (f : Fault) : Diagnostic :=
  ⟨f.message, f.location, "error", f.code.map ErrorCode.text, f.help, f.suggestions⟩

/-- The fault over several lines. -/
def describe (f : Fault) : String := f.diagnostic.text

/-- The code of the fault in words. -/
def category (f : Fault) : Option String := f.code.map ErrorCode.category

end Fault
end LambdaReader

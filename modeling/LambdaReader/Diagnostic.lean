import LambdaReader.Location

/-!
# `Diagnostic` — a message set out over several lines

A diagnostic says what is wrong and where, and how it could be mended. Empty parts are left out of its
text.

## Contents
- `Diagnostic` and `Diagnostic.text`.
-/

namespace LambdaReader

/-- What is to be reported about a place in a source text. -/
structure Diagnostic where
  message : String
  location : Location
  /-- In ASCII, such as `error` or `warning`. -/
  severity : String
  code : Option String
  help : Option String
  suggestions : Option (List String)

namespace Diagnostic

/-- The severity in capitals, with the code if there is one. -/
def heading (d : Diagnostic) : String :=
  match d.code with
  | none | some "" => d.severity.toUpper
  | some code => d.severity.toUpper ++ "[" ++ code ++ "]"

/-- The line of help, if there is any. -/
def helpText (d : Diagnostic) : String :=
  match d.help with
  | none | some "" => ""
  | some help => "  help: " ++ help ++ "\n"

/-- The list of suggestions, if there are any. -/
def suggestionText (d : Diagnostic) : String :=
  match d.suggestions with
  | none | some [] => ""
  | some suggestions =>
    "  suggestions:\n" ++ String.join (suggestions.map fun s => "    - " ++ s ++ "\n")

/-- Message and place, then help and suggestions. -/
def text (d : Diagnostic) : String :=
  d.heading ++ ": " ++ d.message ++ "\n  --> " ++ d.location.text ++ "\n" ++ d.helpText
    ++ d.suggestionText

end Diagnostic
end LambdaReader

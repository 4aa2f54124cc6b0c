import LambdaReader.Text.Encoding
import LambdaReader.Parser.Program

/-!
# `Source` — reading a source text from end to end

A source is a text with the name of its file and the way its strings are read. It can be cut into
tokens, or read as a program, in one pass that scans as it parses; a record of tokens can be read as
a program too.

## Contents
- `Source`, `Source.ofFile`;
- `Source.tokens`;
- `Reading`, `Source.read`, `Source.parse`;
- `Replay.parse`, the program of recorded tokens, and `Source.parseRecorded`.
-/

namespace LambdaReader

/-- The version of the language and its reader. -/
def version : String := "0.1.0"

/-- A text to read. -/
structure Source where
  text : String
  file : String := "<string>"
  /-- Strings have to be closed. -/
  strictStrings : Bool := false
deriving DecidableEq

/-- Why a file is no source. -/
inductive Unreadable where
  | missing
  | notText
deriving DecidableEq

/-- What a program was read as, and what was noted on the way. -/
structure Reading where
  result : Except Failure Node
  journal : List Note

namespace Source

/-- The source in a file with these bytes, if there is such a file. -/
def ofFile (file : String) (strictStrings : Bool) : Option ByteArray → Except Unreadable Source
  | none => .error .missing
  | some bytes =>
    match Text.ofBytes? bytes with
    | none => .error .notText
    | some text => .ok ⟨text, file, strictStrings⟩

/-- A scanner at the start. -/
def scanner (s : Source) : Scanner := .ofText s.text s.file s.strictStrings

/-- All tokens. -/
def tokens (s : Source) : Except Failure (List Token) :=
  match Lookahead.toList (Lookahead.ofSource s.scanner) with
  | .ok ts _ => .ok ts
  | .error e _ => .error e

end Source

/-- Reads all tokens of a token source as a program. -/
def TokenSource.read {σ : Type} [TokenSource σ] (o : ParseOptions) (source : σ) : Reading :=
  match Parser.program o (Parser.ofSource source) with
  | .ok n p => ⟨.ok n, p.tokens.journal.toList⟩
  | .error e p => ⟨.error e, p.tokens.journal.toList⟩

namespace Source

/-- Reads the source as a program, scanning on demand. -/
def read (o : ParseOptions) (s : Source) : Reading := TokenSource.read o s.scanner

/-- The program that the source denotes. -/
def parse (o : ParseOptions) (s : Source) : Except Failure Node := (s.read o).result

end Source

/-- The program that recorded tokens denote. -/
def Replay.parse (o : ParseOptions) (r : Replay) : Except Failure Node := (TokenSource.read o r).result

/-- The program that the source denotes, scanned to its end before it is parsed. -/
def Source.parseRecorded (o : ParseOptions) (s : Source) : Except Failure Node :=
  (Replay.ofSource s.scanner).parse o

end LambdaReader

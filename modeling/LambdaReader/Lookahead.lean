import LambdaReader.TokenSource
import LambdaReader.Node.Kind

/-!
# `Lookahead` — a token source with one token held back

Looking at the next token takes it from the source and keeps it until it is asked for. Nothing else is
ever held. A journal notes every token taken and whatever else is worth noting, in order.

## Contents
- `Note`, an entry of the journal;
- `Lookahead`, `peek`, `next`, `atEnd`, `note`;
- `take` and `toList`, several tokens at once.
-/

namespace LambdaReader

/-- What the journal of a reading holds. -/
inductive Note where
  /-- A token was taken from the source. -/
  | scanned (token : Token)
  /-- An expression of the program was read to its end. -/
  | parsed (kind : NodeKind)
  /-- The program was read, so many expressions from a file. -/
  | finished (count : Nat) (file : String)
deriving DecidableEq

namespace Note

/-- The note in words. -/
def text : Note → String
  | scanned t => "scanned " ++ t.brief ++ " at " ++ t.location.text
  | parsed kind => "parsed top-level " ++ kind.label
  | finished count file =>
    "parsed " ++ toString count ++ " top-level expressions from " ++ file

end Note

/-- A token source, the token looked at but not yet taken, and the journal. -/
structure Lookahead (σ : Type) where
  source : σ
  ahead : Option Token
  journal : Array Note

namespace Lookahead

variable {σ : Type} [TokenSource σ]

/-- Nothing looked at, nothing noted. -/
def ofSource (source : σ) : Lookahead σ := ⟨source, none, #[]⟩

/-- The location the source has read up to. -/
def location (l : Lookahead σ) : Location := TokenSource.location l.source

/-- No more tokens than this are left. -/
def bound (l : Lookahead σ) : Nat := TokenSource.bound l.source + l.ahead.toList.length

/-- The token looked at is lost. -/
def forget (l : Lookahead σ) : Lookahead σ := { l with ahead := none }

/-- Adds to the journal. -/
def note (n : Note) : EStateM Failure (Lookahead σ) Unit := fun l =>
  .ok () { l with journal := l.journal.push n }

/-- Runs a step of the source. -/
def onSource {α : Type} (step : EStateM Failure σ α) : EStateM Failure (Lookahead σ) α := fun l =>
  match step l.source with
  | .ok a s => .ok a { l with source := s }
  | .error e s => .error e { l with source := s }

/-- Takes a token from the source. -/
def fetch : EStateM Failure (Lookahead σ) (Option Token) := do
  match ← onSource TokenSource.scan with
  | none => return none
  | some t =>
    note (.scanned t)
    return some t

/-- Looks at the next token. -/
def peek : EStateM Failure (Lookahead σ) (Option Token) := do
  match (← get).ahead with
  | some t => return some t
  | none =>
    let found ← fetch
    modify fun l => { l with ahead := found }
    return found

/-- Takes the next token. -/
def next : EStateM Failure (Lookahead σ) (Option Token) := do
  match (← get).ahead with
  | some t =>
    modify forget
    return some t
  | none => fetch

/-- Whether no token is left. -/
def atEnd : EStateM Failure (Lookahead σ) Bool := do
  return (← peek).isNone

/-- The next `n` tokens, or as many as there are. -/
def take : Nat → EStateM Failure (Lookahead σ) (List Token)
  | 0 => return []
  | n + 1 => do
    if ← atEnd then return []
    else
      match ← next with
      | none => return []
      | some t => return t :: (← take n)

/-- All tokens that are left. -/
def toList : EStateM Failure (Lookahead σ) (List Token) := do
  take ((← get).bound + 1)

end Lookahead
end LambdaReader

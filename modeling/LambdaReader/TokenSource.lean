import LambdaReader.Scanner

/-!
# `TokenSource` — where tokens come from

A token source gives tokens one at a time and then ends, or fails. It knows the location it has read
up to, and a bound on the number of tokens still to come. There are two: the scanner, which makes its
tokens on demand, and a record of tokens that were made before.

## Contents
- `TokenSource` and its instance for `Scanner`;
- `Replay`, a record of tokens with its ending, and its instance;
- `TokenSource.drain`, all that a source has to give, and `Replay.ofScan`.
-/

namespace LambdaReader

/-- A place to take tokens from. -/
class TokenSource (σ : Type) where
  /-- The next token, or none at the end. -/
  scan : EStateM Failure σ (Option Token)
  /-- The location read up to. -/
  location : σ → Location
  /-- No more tokens than this are left. -/
  bound : σ → Nat

instance : TokenSource Scanner where
  scan := Scanner.readNext
  location := Scanner.location
  bound s := s.cursor.rest.length

/-! ## Recorded tokens -/

/-- How a record of tokens ends: at a location, or by a failure. -/
inductive Ending where
  | done (location : Location)
  | failed (failure : Failure)
deriving DecidableEq

/-- Tokens that are there already. -/
structure Replay where
  tokens : List Token
  ending : Ending
  /-- The location read up to. -/
  location : Location
deriving DecidableEq

namespace Replay

/-- Gives the next token; its end is then the location read up to. -/
def scan : EStateM Failure Replay (Option Token) := fun r =>
  match r.tokens, r.ending with
  | t :: rest, _ => .ok (some t) { r with tokens := rest, location := t.stop }
  | [], .done l => .ok none { r with location := l }
  | [], .failed f => .error f r

end Replay

instance : TokenSource Replay where
  scan := Replay.scan
  location := Replay.location
  bound r := r.tokens.length

/-! ## All tokens at once -/

variable {σ : Type} [TokenSource σ]

/-- At most `n` tokens of a source and how it goes on after them. -/
def TokenSource.collect : Nat → σ → List Token × Ending
  | 0, s => ([], .done (TokenSource.location s))
  | n + 1, s =>
    match TokenSource.scan s with
    | .ok (some t) after =>
      let (ts, ending) := collect n after
      (t :: ts, ending)
    | .ok none after => ([], .done (TokenSource.location after))
    | .error f _ => ([], .failed f)

/-- All tokens of a source and how it ends. -/
def TokenSource.drain (s : σ) : List Token × Ending :=
  TokenSource.collect (TokenSource.bound s + 1) s

/-- The record of everything a source has to give. -/
def Replay.ofSource (s : σ) : Replay :=
  ⟨(TokenSource.drain s).1, (TokenSource.drain s).2, TokenSource.location s⟩

end LambdaReader

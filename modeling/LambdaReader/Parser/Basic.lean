import LambdaReader.Lookahead
import LambdaReader.Node.Basic

/-!
# `Parser.Basic` — the state of a parser and its single steps

A parser holds a token source with one token of look-ahead, the last token it took, and how deeply
nested it is at the moment. Its steps look at the next token, take it, demand that it is a certain
one, or fail at the location read up to.

## Contents
- `ParseOptions`, `Parser`, `Parse`;
- `peek`, `advance`, `isAt`, `skip`, and failing by `fail` and `reject`;
- `descend` and `nested`, one level deeper;
- `startLocation` and `spanFrom`, the ends of spans.
-/

namespace LambdaReader

/-- How programs are read. -/
structure ParseOptions where
  /-- `a = b = c` groups to the right. -/
  rightAssignment : Bool := false
  /-- A separator may stand before the closing mark. -/
  trailingSeparators : Bool := false
  /-- The deepest nesting accepted. -/
  maxDepth : Int := 128
deriving DecidableEq

/-- The state of a parser. -/
structure Parser (σ : Type) where
  tokens : Lookahead σ
  /-- The last token taken. -/
  last : Option Token
  /-- The levels of nesting at the moment. -/
  depth : Nat

/-- Steps of a parser, which may fail. -/
abbrev Parse (σ α : Type) := EStateM Failure (Parser σ) α

namespace Parser

variable {σ α : Type}

/-- A parser at the start of its tokens. -/
def ofSource (source : σ) : Parser σ := ⟨.ofSource source, none, 0⟩

variable [TokenSource σ]

/-- The location read up to. -/
def location (p : Parser σ) : Location := p.tokens.location

/-! ## Tokens -/

/-- Runs a step of the tokens. -/
def onTokens (step : EStateM Failure (Lookahead σ) α) : Parse σ α := fun p =>
  match step p.tokens with
  | .ok a ts => .ok a { p with tokens := ts }
  | .error e ts => .error e { p with tokens := ts }

/-- Looks at the next token. -/
def peek : Parse σ (Option Token) := onTokens Lookahead.peek

/-- Whether no token is left. -/
def atEnd : Parse σ Bool := onTokens Lookahead.atEnd

/-- Takes the next token and remembers it as the last one. -/
def advance : Parse σ (Option Token) := do
  match ← onTokens Lookahead.next with
  | none => return none
  | some t =>
    modify fun p => { p with last := some t }
    return some t

/-- Whether the next token is of a kind. -/
def isAtKind (kind : TokenKind) : Parse σ Bool := do
  return (← peek).any fun t => t.kind = kind

/-- Whether the next token is of a kind and stands for a text. -/
def isAt (kind : TokenKind) (text : String) : Parse σ Bool := do
  return (← peek).any fun t => t.kind = kind && t.hasText text

/-! ## Failing -/

/-- Fails for a cause, met at `found`. -/
def fail (cause : GrammarCause) (found : Option Token) : Parse σ α := do
  throw (.grammar cause found (← get).location)

/-- Fails for a cause, met at the next token. -/
def reject (cause : GrammarCause) : Parse σ α := do
  fail cause (← peek)

/-- Takes the next token, which has to be a certain one. -/
def skip (kind : TokenKind) (text : String) : Parse σ Unit := do
  if ← isAt kind text then
    let _ ← advance
  else reject (.expected kind text)

/-! ## Nesting -/

/-- The parser one level less deep. -/
def ascend (p : Parser σ) : Parser σ := { p with depth := p.depth - 1 }

/-- Goes one level deeper, if that is not too deep. -/
def descend (o : ParseOptions) : Parse σ Unit := do
  modify fun p => { p with depth := p.depth + 1 }
  if o.maxDepth < (← get).depth then reject (.tooDeep o.maxDepth) else return ()

/-- Runs a step one level deeper; however it ends, the level is left again. -/
def nested (o : ParseOptions) (body : Parse σ α) : Parse σ α := fun p =>
  match (descend o >>= fun _ => body) p with
  | .ok a p => .ok a p.ascend
  | .error e p => .error e p.ascend

/-- The levels that are left. -/
def levels (o : ParseOptions) (p : Parser σ) : Nat := (o.maxDepth - p.depth).toNat

/-! ## Spans -/

/-- Where the next token starts; at the end, the location read up to. -/
def startLocation : Parse σ Location := do
  match ← peek with
  | some t => return t.location
  | none => return (← get).location

/-- The span from a location to the last token taken. -/
def spanFrom (first : Location) : Parse σ Span := do
  return ⟨first, ((← get).last.map Token.location).getD first⟩

/-- The span of a node, which has to have one. -/
def spanOf (n : Node) : Parse σ Span :=
  match n.span with
  | some s => return s
  | none => throw (.misuse .absentSpan)

end Parser
end LambdaReader

import LambdaReader.Parser.Expression

/-!
# `Parser.Program` — whole programs

A program is a sequence of expressions with semicolons between them and maybe one at the end. The
journal notes each expression once it is known where it ends, and the whole at last.

## Contents
- `statements` and `program`.
-/

namespace LambdaReader
namespace Parser

variable {σ : Type} [TokenSource σ]

/-- The semicolon after an expression, which the last one does not need. -/
def skipSeparator : Parse σ Unit := do
  if ← atEnd then return () else skip .punctuation ";"

/-- The expressions up to the end, at most `n` of them. -/
def statements (o : ParseOptions) : Nat → Parse σ (List Node)
  | 0 => return []
  | n + 1 => do
    if ← atEnd then return []
    else
      let first ← expression o
      onTokens (Lookahead.note (.parsed first.kind))
      skipSeparator
      return first :: (← statements o n)

/-- A whole program. -/
def program (o : ParseOptions) : Parse σ Node := do
  let start := (← get).location
  let body ← statements o ((← get).tokens.bound + 1)
  let span ← spanFrom start
  onTokens (Lookahead.note (.finished body.length start.file))
  return .program body (some span)

end Parser
end LambdaReader

import LambdaReader.Parser.Basic

/-!
# `Parser.Sequence` — items between two marks

A sequence is an opening mark, any number of items with a separator between each two, and a closing
mark. A separator before the closing mark is accepted only if the options say so.

## Contents
- `items`, the items up to the closing mark, and `delimited`, the whole sequence.
-/

namespace LambdaReader
namespace Parser

variable {σ α : Type} [TokenSource σ]

/-- Takes the separator that comes before each item but the first; tells whether an item follows. -/
def anotherItem (o : ParseOptions) (stop separator : String) (first : Bool) : Parse σ Bool := do
  if first then return true
  else
    skip .punctuation separator
    if o.trailingSeparators then return !(← isAt .punctuation stop) else return true

/-- The items up to the closing mark or the end, at most `n` of them. -/
def items (o : ParseOptions) (stop separator : String) (item : Parse σ α) :
    Nat → Bool → Parse σ (List α)
  | 0, _ => return []
  | n + 1, first => do
    if ← atEnd then return []
    else if ← isAt .punctuation stop then return []
    else if ← anotherItem o stop separator first then
      let x ← item
      return x :: (← items o stop separator item n false)
    else return []

/-- A sequence of items between marks. Every item takes a token, so there are no more of them than
tokens. -/
def delimited (o : ParseOptions) (start stop separator : String) (item : Parse σ α) :
    Parse σ (List α) := do
  skip .punctuation start
  let found ← items o stop separator item ((← get).tokens.bound + 1) true
  skip .punctuation stop
  return found

end Parser
end LambdaReader

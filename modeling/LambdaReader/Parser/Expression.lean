import LambdaReader.Parser.Sequence
import LambdaReader.Precedence

/-!
# `Parser.Expression` — the grammar of expressions

Atoms are read by recursive descent and binary operators by precedence climbing; a call may follow an
atom and a whole expression. Every expression, every right operand and every operator folded onto a
left operand is one level deeper, so the number of levels left bounds the recursion.

## Contents
- the forms of an atom, given a way to read expressions: `conditional`, `function`, `block`, `call`, …;
- `expressionAt`, `operandAt` and `operatorsAt`, with the number of levels left;
- `expression`, `operators` and the other forms on their own.
-/

namespace LambdaReader
namespace Parser

variable {σ : Type} [TokenSource σ]

/-! ## Atoms, given a way to read expressions -/

/-- The name of a variable; the token is taken whatever it is. -/
def variableName : Parse σ String := do
  match ← advance with
  | none => fail .notAVariable none
  | some t => if t.kind = .identifier then return t.text else fail .notAVariable (some t)

/-- A token taken for a truth value; only `true` is true. -/
def boolean : Parse σ Node := do
  match ← advance with
  | none => throw (.misuse .absentToken)
  | some t => return .bool (t.hasText "true") (some (← spanFrom t.location))

/-- The node of a token that is one by itself. -/
def leafNode (t : Token) (span : Span) : Parse σ Node :=
  match t.kind with
  | .identifier => return .reference t.text (some span)
  | .number =>
    match t.number? with
    | some x => return .number x (some span)
    | none => throw (.misuse (.notANumeral t.text))
  | .string => return .string t.text (some span)
  | _ => return .operator t.text (some span)

/-- A token that is a node by itself. -/
def leaf : Parse σ Node := do
  match ← peek with
  | none => reject .unexpected
  | some t =>
    if t.kind = .punctuation ∨ t.kind = .keyword then reject .unexpected
    else
      let _ ← advance
      leafNode t (← spanFrom t.location)

/-- The arguments of a call of `callee`. -/
def callWith (o : ParseOptions) (expr : Parse σ Node) (callee : Node) : Parse σ Node := do
  let args ← delimited o "(" ")" "," expr
  return .call callee args (some (← spanFrom (← spanOf callee).first))

/-- A call of `callee` if arguments follow. -/
def maybeCallWith (o : ParseOptions) (expr : Parse σ Node) (callee : Node) : Parse σ Node := do
  if ← isAt .punctuation "(" then callWith o expr callee else return callee

/-- The keyword before a positive branch, which a block does not need. -/
def skipThen : Parse σ Unit := do
  if ← isAt .punctuation "\x7b" then return () else skip .keyword "then"

/-- A conditional. -/
def conditionalWith (expr : Parse σ Node) : Parse σ Node := do
  let start ← startLocation
  skip .keyword "if"
  let condition ← expr
  skipThen
  let positive ← expr
  if ← isAt .keyword "else" then
    let _ ← advance
    let negative ← expr
    return .ifElse condition positive negative (some (← spanFrom start))
  else return .ifThen condition positive (some (← spanFrom start))

/-- A function: its parameters and its body. -/
def functionWith (o : ParseOptions) (expr : Parse σ Node) : Parse σ Node := do
  let start ← startLocation
  skip .keyword "lambda"
  let params ← delimited o "(" ")" "," variableName
  let body ← expr
  return .lambda params body (some (← spanFrom start))

/-- A block. An empty one is false and one of a single expression is that expression. -/
def blockWith (o : ParseOptions) (expr : Parse σ Node) : Parse σ Node := do
  let start ← startLocation
  let body ← delimited o "\x7b" "\x7d" ";" expr
  let span ← spanFrom start
  match body with
  | [] => return .bool false (some span)
  | [n] => return n
  | ns => return .program ns (some span)

/-- An expression in parentheses. -/
def groupWith (expr : Parse σ Node) : Parse σ Node := do
  let _ ← advance
  let n ← expr
  skip .punctuation ")"
  return n

/-- What an atom is before a call: chosen by the next token. -/
def primaryWith (o : ParseOptions) (expr : Parse σ Node) : Parse σ Node := do
  if ← isAt .punctuation "(" then groupWith expr
  else if ← isAt .punctuation "\x7b" then blockWith o expr
  else if ← isAt .keyword "if" then conditionalWith expr
  else if ← isAt .keyword "true" then boolean
  else if ← isAt .keyword "false" then boolean
  else if ← isAt .keyword "lambda" then functionWith o expr
  else leaf

/-- A primary and a call of it if arguments follow. -/
def atomWith (o : ParseOptions) (expr : Parse σ Node) : Parse σ Node := do
  maybeCallWith o expr (← primaryWith o expr)

/-! ## Operators -/

/-- The next token's symbol if it is an operator that binds tighter than `bound`. -/
def tighterThan (bound : Int) : Parse σ (Option String) := do
  match ← peek with
  | none => return none
  | some t =>
    if t.kind = .operator ∧ bound < (Precedence.ofSymbol t.text).strength then return some t.text
    else return none

/-- The bound for the right operand of an operator: its own strength, so that it groups to the left,
or one less for an assignment that groups to the right. -/
def rightBound (o : ParseOptions) (symbol : String) : Int :=
  if symbol = Node.assignSymbol ∧ o.rightAssignment then (Precedence.ofSymbol symbol).strength - 1
  else (Precedence.ofSymbol symbol).strength

/-- The node of an operator and its operands. -/
def join (symbol : String) (left right : Node) : Parse σ Node := do
  let span : Span := ⟨(← spanOf left).first, (← spanOf right).last⟩
  if symbol = Node.assignSymbol then return .assign left right (some span)
  else return .binary symbol left right (some span)

/-- Fails because no level is left. -/
def exhausted {α : Type} (o : ParseOptions) : Parse σ α := nested o (reject (.tooDeep o.maxDepth))

/-! ## Expressions, with the number of levels left -/

mutual

/-- An expression. -/
def expressionAt (o : ParseOptions) : Nat → Parse σ Node
  | 0 => exhausted o
  | n + 1 => nested o do
    let first ← atomWith o (expressionAt o n)
    let whole ← operatorsAt o n first Precedence.nothing.strength
    maybeCallWith o (expressionAt o n) whole

/-- An operand with the operators that bind tighter than `bound`. -/
def operandAt (o : ParseOptions) : Nat → Int → Parse σ Node
  | 0, _ => exhausted o
  | n + 1, bound => nested o do
    let first ← atomWith o (expressionAt o n)
    operatorsAt o n first bound

/-- Folds the operators that bind tighter than `bound` onto `left`. The level of a fold is left only
after all folds that follow it. -/
def operatorsAt (o : ParseOptions) : Nat → Node → Int → Parse σ Node
  | 0, left, bound => do
    match ← tighterThan bound with
    | none => return left
    | some _ =>
      let _ ← advance
      exhausted o
  | n + 1, left, bound => do
    match ← tighterThan bound with
    | none => return left
    | some symbol =>
      let _ ← advance
      nested o do
        let right ← operandAt o n (rightBound o symbol)
        let whole ← join symbol left right
        operatorsAt o n whole bound

end

/-! ## The forms on their own -/

/-- An expression. -/
def expression (o : ParseOptions) : Parse σ Node := fun p => expressionAt o (p.levels o) p

/-- Folds the operators that bind tighter than `bound` onto `left`. -/
def operators (o : ParseOptions) (left : Node) (bound : Int) : Parse σ Node := fun p =>
  operatorsAt o (p.levels o) left bound p

/-- An atom. -/
def atom (o : ParseOptions) : Parse σ Node := atomWith o (expression o)

/-- A call of `callee`. -/
def call (o : ParseOptions) (callee : Node) : Parse σ Node := callWith o (expression o) callee

/-- A call of `callee` if arguments follow. -/
def maybeCall (o : ParseOptions) (callee : Node) : Parse σ Node := maybeCallWith o (expression o) callee

/-- A conditional. -/
def conditional (o : ParseOptions) : Parse σ Node := conditionalWith (expression o)

/-- A function. -/
def function (o : ParseOptions) : Parse σ Node := functionWith o (expression o)

/-- A block. -/
def block (o : ParseOptions) : Parse σ Node := blockWith o (expression o)

end Parser
end LambdaReader

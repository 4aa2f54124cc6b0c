import LambdaReader.Node.Kind
import LambdaReader.Location
import LambdaReader.Decimal.Shortest

/-!
# `Node` — the trees that source text denotes

A node is a literal, a reference to an identifier or an operator, or an expression made of other
nodes. Every node may carry the span of the source it was read from.

## Contents
- `Node`, its kind, its span and its children;
- `Node.walk`, all nodes of a tree, parents first;
- `Node.text`, kind and span in short, and `Node.render`, the tree in full without spans.
-/

namespace LambdaReader

/-- A tree. -/
inductive Node where
  | number (value : Float) (span : Option Span)
  | string (value : String) (span : Option Span)
  | bool (value : Bool) (span : Option Span)
  /-- An identifier. -/
  | reference (name : String) (span : Option Span)
  /-- An operator where an operand could stand. -/
  | operator (symbol : String) (span : Option Span)
  /-- What is on the left is not checked to be an identifier. -/
  | assign (left right : Node) (span : Option Span)
  /-- Any binary operator but the one of assignment. -/
  | binary (symbol : String) (left right : Node) (span : Option Span)
  | ifThen (condition positive : Node) (span : Option Span)
  | ifElse (condition positive negative : Node) (span : Option Span)
  | lambda (params : List String) (body : Node) (span : Option Span)
  | call (function : Node) (args : List Node) (span : Option Span)
  /-- A sequence of expressions. -/
  | program (body : List Node) (span : Option Span)
deriving Inhabited

namespace Node

/-- The operator of an assignment. -/
def assignSymbol : String := "="

/-- The kind of the root. -/
def kind : Node → NodeKind
  | number .. => .number
  | string .. => .string
  | bool .. => .bool
  | reference .. => .reference
  | operator .. => .operator
  | assign .. => .assign
  | binary .. => .binary
  | ifThen .. | ifElse .. => .conditional
  | lambda .. => .lambda
  | call .. => .call
  | program .. => .program

/-- The span of the root. -/
def span : Node → Option Span
  | number _ s | string _ s | bool _ s | reference _ s | operator _ s | assign _ _ s | binary _ _ _ s
  | ifThen _ _ s | ifElse _ _ _ s | lambda _ _ s | call _ _ s | program _ s => s

/-- The nodes right below the root, from left to right. -/
def children : Node → List Node
  | number .. | string .. | bool .. | reference .. | operator .. => []
  | assign l r _ | binary _ l r _ => [l, r]
  | ifThen c p _ => [c, p]
  | ifElse c p n _ => [c, p, n]
  | lambda _ b _ => [b]
  | call f args _ => f :: args
  | program body _ => body

mutual

/-- The node and all nodes below it, each before its children. -/
def walk : Node → List Node
  | number v s => [number v s]
  | string v s => [string v s]
  | bool v s => [bool v s]
  | reference n s => [reference n s]
  | operator o s => [operator o s]
  | assign l r s => assign l r s :: (walk l ++ walk r)
  | binary o l r s => binary o l r s :: (walk l ++ walk r)
  | ifThen c p s => ifThen c p s :: (walk c ++ walk p)
  | ifElse c p n s => ifElse c p n s :: (walk c ++ (walk p ++ walk n))
  | lambda ps b s => lambda ps b s :: walk b
  | call f args s => call f args s :: (walk f ++ walkAll args)
  | program body s => program body s :: walkAll body

/-- The nodes of several trees in turn. -/
def walkAll : List Node → List Node
  | [] => []
  | n :: ns => walk n ++ walkAll ns

end

theorem walkAll_eq_flatMap (ns : List Node) : walkAll ns = ns.flatMap walk := by
  induction ns with
  | nil => rfl
  | cons n ns ih => simp [walkAll, ih]

/-- A walk goes to the root first and then through the walks of the children. -/
theorem walk_eq_cons (n : Node) : walk n = n :: n.children.flatMap walk := by
  cases n <;> simp [walk, children, walkAll_eq_flatMap]

/-! ## Texts -/

/-- Kind and span in short. -/
def text (n : Node) : String :=
  n.kind.label ++ "@" ++ (n.span.map Span.text).getD "None"

/-- Texts side by side in parentheses; a single one is followed by a comma. -/
def tuple : List String → String
  | [] => "()"
  | [x] => "(" ++ x ++ ",)"
  | x :: y :: rest => "(" ++ ", ".intercalate (x :: y :: rest) ++ ")"

/-- A constructor with the texts of its fields. -/
def applied (constructor : String) (fields : List String) : String :=
  constructor ++ "(" ++ ", ".intercalate fields ++ ")"

mutual

/-- The tree in full, without spans. -/
def render : Node → String
  | number v _ => applied "NumberLiteral" [Decimal.floatText v]
  | string v _ => applied "StringLiteral" [Text.quoted v]
  | bool v _ => applied "BoolLiteral" [if v then "True" else "False"]
  | reference n _ => applied "Variable" [Text.quoted n]
  | operator o _ => applied "OperatorRef" [Text.quoted o]
  | assign l r _ => applied "Assign" [Text.quoted assignSymbol, render l, render r]
  | binary o l r _ => applied "Binary" [Text.quoted o, render l, render r]
  | ifThen c p _ => applied "If" [render c, render p, "None"]
  | ifElse c p n _ => applied "If" [render c, render p, render n]
  | lambda ps b _ => applied "Lambda" [tuple (ps.map Text.quoted), render b]
  | call f args _ => applied "Call" [render f, tuple (renderAll args)]
  | program body _ => applied "Program" [tuple (renderAll body)]

/-- The texts of several trees. -/
def renderAll : List Node → List String
  | [] => []
  | n :: ns => render n :: renderAll ns

end

theorem renderAll_eq_map (ns : List Node) : renderAll ns = ns.map render := by
  induction ns with
  | nil => rfl
  | cons n ns ih => simp [renderAll, ih]

end Node
end LambdaReader

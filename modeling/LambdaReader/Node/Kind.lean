/-!
# `Node.Kind` — the kinds of node in a tree

## Contents
- `NodeKind`, its names, its label and the list of all kinds.
-/

namespace LambdaReader

/-- The kinds of node. -/
inductive NodeKind where
  | program
  | number
  | string
  | bool
  | reference
  | operator
  | assign
  | binary
  | conditional
  | lambda
  | call
deriving DecidableEq

namespace NodeKind

/-- All kinds: programs, literals, references, compound expressions. -/
def all : List NodeKind :=
  [program, number, string, bool, reference, operator, assign, binary, conditional, lambda, call]

/-- The kind as trees are shown with it. -/
def label : NodeKind → String
  | program => "Program"
  | number => "Number"
  | string => "String"
  | bool => "Bool"
  | reference => "Variable"
  | operator => "Operator"
  | assign => "Assign"
  | binary => "Binary"
  | conditional => "If"
  | lambda => "Lambda"
  | call => "Call"

/-- The label in capitals. -/
def name (k : NodeKind) : String := k.label.toUpper

/-- The label in small letters, by which visitors ask for a kind. -/
def handler (k : NodeKind) : String := k.label.toLower

/-- The kind with a label. -/
def ofLabel? (label : String) : Option NodeKind := all.find? fun k => k.label == label

theorem ofLabel?_label (k : NodeKind) : ofLabel? k.label = some k := by cases k <;> decide

end NodeKind
end LambdaReader

/-!
# `Precedence` — how tightly binary operators bind

## Contents
- `Precedence`, its strength and the list of all;
- `operatorTable` and `Precedence.ofSymbol`.
-/

namespace LambdaReader

/-- How tightly an operator binds. -/
inductive Precedence where
  /-- Not a binary operator. -/
  | nothing
  | assignment
  | disjunction
  | conjunction
  | comparison
  | term
  | factor
deriving DecidableEq

namespace Precedence

/-- All of them, the loosest first. -/
def all : List Precedence :=
  [nothing, assignment, disjunction, conjunction, comparison, term, factor]

/-- The greater the strength, the tighter the operator binds. -/
def strength : Precedence → Int
  | nothing => 0
  | assignment => 1
  | disjunction => 2
  | conjunction => 3
  | comparison => 7
  | term => 10
  | factor => 20

/-- The name of a precedence. -/
def name : Precedence → String
  | nothing => "NONE"
  | assignment => "ASSIGNMENT"
  | disjunction => "OR"
  | conjunction => "AND"
  | comparison => "COMPARISON"
  | term => "TERM"
  | factor => "FACTOR"

/-- The binary operators in the order of code points. -/
def table : List (String × Precedence) :=
  [("!=", comparison), ("%", factor), ("&&", conjunction), ("*", factor), ("+", term), ("-", term),
    ("/", factor), ("<", comparison), ("<=", comparison), ("=", assignment), ("==", comparison),
    (">", comparison), (">=", comparison), ("||", disjunction)]

/-- The precedence of an operator; one outside the table binds nothing. -/
def ofSymbol (symbol : String) : Precedence := (table.lookup symbol).getD nothing

end Precedence
end LambdaReader

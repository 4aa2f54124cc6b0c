/-!
# `Lexicon` — the fixed words and character classes of the language

The scanner decides by membership in these tables. They are plain lists in the order of code points, so
that they can be shown as they are; the predicates on characters and words follow.

## Contents
- the tables: `keywords`, `punctuation`, `operatorChars`, `blanks`, `identifierExtras`, `digits`;
- the single characters `commentMark`, `stringQuote`, `escapeMark`, `point`;
- the classes `isDigit`, `isIdentifierStart`, `isIdentifierChar`, `isOperatorChar`, `isPunctuation`,
  `isBlank`, and `isKeyword` on words.
-/

namespace LambdaReader
namespace Lexicon

/-! ## Tables -/

/-- The words that are no identifiers. -/
def keywords : List String := ["else", "false", "if", "lambda", "then", "true"]

/-- Each of these is a token by itself. -/
def punctuation : List Char := ['(', ')', ',', ';', '[', ']', '{', '}']

/-- A run of these is one operator. -/
def operatorChars : List Char := ['!', '%', '&', '*', '+', '-', '<', '=', '>', '|']

/-- What separates tokens besides comments. -/
def blanks : List Char := ['\t', '\n', ' ']

/-- What an identifier may hold after its first letter besides letters. -/
def identifierExtras : List Char :=
  ['!', '-', '0', '1', '2', '3', '4', '5', '6', '7', '8', '9', '<', '=', '>', '?', '_']

/-- The decimal digits. -/
def digits : List Char := ['0', '1', '2', '3', '4', '5', '6', '7', '8', '9']

/-- Opens a comment that ends with its line. -/
def commentMark : Char := '#'

/-- Opens and closes a string. -/
def stringQuote : Char := '"'

/-- Takes the meaning from the character after it. -/
def escapeMark : Char := '\\'

/-- Separates the whole part of a number from its fraction. -/
def point : Char := '.'

/-! ## Classes -/

def isKeyword (word : String) : Bool := keywords.contains word

def isDigit (c : Char) : Bool := c.isDigit

/-- Identifiers start with an ASCII letter. -/
def isIdentifierStart (c : Char) : Bool := c.isAlpha

def isIdentifierChar (c : Char) : Bool := isIdentifierStart c || identifierExtras.contains c

def isOperatorChar (c : Char) : Bool := operatorChars.contains c

def isPunctuation (c : Char) : Bool := punctuation.contains c

def isBlank (c : Char) : Bool := blanks.contains c

/-- The word is one character of a class. -/
def isOne (isIn : Char → Bool) (word : String) : Bool :=
  match word.toList with
  | [c] => isIn c
  | _ => false

/-- The table of digits lists exactly the digits. -/
theorem isDigit_iff_mem {c : Char} : isDigit c = true ↔ c ∈ digits := by
  constructor
  · intro h
    have hr : 48 ≤ c.toNat ∧ c.toNat ≤ 57 := by
      simpa [isDigit, Char.isDigit, UInt32.le_iff_toNat_le] using h
    have hc : c = Char.ofNat c.toNat := (Char.ofNat_toNat c).symm
    rw [hc]
    generalize c.toNat = n at hr
    have : n = 48 ∨ n = 49 ∨ n = 50 ∨ n = 51 ∨ n = 52 ∨ n = 53 ∨ n = 54 ∨ n = 55 ∨ n = 56 ∨
        n = 57 := by omega
    rcases this with h | h | h | h | h | h | h | h | h | h <;> subst h <;> decide
  · intro h
    have hall : digits.all isDigit = true := by decide
    exact List.all_eq_true.mp hall c h

end Lexicon
end LambdaReader

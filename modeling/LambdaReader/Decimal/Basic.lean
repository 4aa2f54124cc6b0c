/-!
# `Decimal` — decimal numbers and how they are read

A decimal is a natural significand scaled by a power of ten. Its float is the nearest one, a tie going
to the even significand; a decimal beyond the greatest float becomes infinite.

## Contents
- `Decimal` and `Decimal.toFloat`;
- `ofNumeral?`, digits with at most one point;
- `ofScientific?`, the same with an exponent;
- `readFloat?`, signed numbers, infinities and the missing number.
-/

namespace LambdaReader

/-- The number `significand · 10 ^ exponent`. -/
structure Decimal where
  significand : Nat
  exponent : Int
deriving DecidableEq

namespace Decimal

/-- The nearest float. -/
def toFloat (d : Decimal) : Float :=
  Float.ofScientific d.significand (decide (d.exponent < 0)) d.exponent.natAbs

/-- The number a run of digits denotes, the most significant first. -/
def ofDigits (cs : List Char) : Nat :=
  cs.foldl (fun n c => 10 * n + (c.toNat - '0'.toNat)) 0

/-- Digits with at most one point among or beside them, and at least one digit. -/
def ofNumeral? (cs : List Char) : Option Decimal :=
  let whole := cs.takeWhile Char.isDigit
  match cs.dropWhile Char.isDigit with
  | [] => if whole.isEmpty then none else some ⟨ofDigits whole, 0⟩
  | '.' :: fraction =>
    if fraction.all Char.isDigit && !(whole ++ fraction).isEmpty then
      some ⟨ofDigits (whole ++ fraction), -fraction.length⟩
    else none
  | _ => none

/-- A run of digits after an optional sign. -/
def readExponent? : List Char → Option Int
  | '-' :: digits => if digits.all Char.isDigit then some (-ofDigits digits) else none
  | '+' :: digits => if digits.all Char.isDigit then some (ofDigits digits) else none
  | digits => if digits.all Char.isDigit then some (ofDigits digits) else none

/-- A numeral, alone or scaled by an exponent after the letter `e`. -/
def ofScientific? (cs : List Char) : Option Decimal := do
  let d ← ofNumeral? (cs.takeWhile (· ≠ 'e'))
  match cs.dropWhile (· ≠ 'e') with
  | [] => some d
  | _ :: scale => return { d with exponent := d.exponent + (← readExponent? scale) }

/-- A number without sign, or infinity. -/
def readUnsigned? (cs : List Char) : Option Float :=
  if cs = ['i', 'n', 'f'] then some (1.0 / 0.0) else (ofScientific? cs).map toFloat

/-- Reads every text that a float is written as. -/
def readFloat? : List Char → Option Float
  | ['n', 'a', 'n'] => some (0.0 / 0.0)
  | '-' :: cs => (readUnsigned? cs).map (-·)
  | cs => readUnsigned? cs

end Decimal
end LambdaReader

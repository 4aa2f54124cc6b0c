import LambdaReader.Decimal.Basic

/-!
# `Decimal.Layout` — the digits of a decimal set out as text

The significant digits are written either positionally, always with a point and a digit on both sides
of it, or as one digit, a fraction if any, and an exponent with its sign. Which of the two depends on
the place of the first significant digit.

## Contents
- `Layout`, the decisions of a format, and `Layout.plain`, those made here;
- `digits` and `scale`, the significant digits and the place of the first;
- `layout`, the text.
-/

namespace LambdaReader
namespace Decimal

/-- Where positional writing begins and ends, and how wide an exponent is at least. -/
structure Layout where
  /-- The least place of the first digit written positionally. -/
  least : Int
  /-- The least greater place that is not. -/
  limit : Int
  /-- Exponents have at least this many digits. -/
  exponentWidth : Nat

/-- Positional from ten thousandths to below ten quadrillions; exponents have two digits or more. -/
def Layout.plain : Layout := ⟨-4, 16, 2⟩

/-- The significant digits, without zeros at the end but at least one. -/
def digits (d : Decimal) : List Char :=
  match ((Nat.toDigits 10 d.significand).reverse.dropWhile (· = '0')).reverse with
  | [] => ['0']
  | ds => ds

/-- The power of ten that the first significant digit counts. -/
def scale (d : Decimal) : Int :=
  (Nat.toDigits 10 d.significand).length - 1 + d.exponent

/-- Zeros in front up to a width. -/
def padZeros (width : Nat) (cs : List Char) : List Char :=
  List.replicate (width - cs.length) '0' ++ cs

/-- Positional text of the digits `ds`, the first of which counts `10 ^ scale`. -/
def positional (ds : List Char) : Int → List Char
  | .ofNat n =>
    let whole := ds.take (n + 1) ++ List.replicate (n + 1 - ds.length) '0'
    let fraction := ds.drop (n + 1)
    whole ++ '.' :: (if fraction.isEmpty then ['0'] else fraction)
  | .negSucc n => '0' :: '.' :: (List.replicate n '0' ++ ds)

/-- Text with an exponent of the digits `ds`, the first of which counts `10 ^ scale`. -/
def scientific (width : Nat) (ds : List Char) (scale : Int) : List Char :=
  let fraction := if ds.length ≤ 1 then [] else '.' :: ds.drop 1
  let sign := if scale < 0 then '-' else '+'
  ds.take 1 ++ fraction ++ 'e' :: sign :: padZeros width (Nat.toDigits 10 scale.natAbs)

/-- The text of a decimal. -/
def layout (l : Layout) (d : Decimal) : List Char :=
  if l.least ≤ d.scale ∧ d.scale < l.limit then positional d.digits d.scale
  else scientific l.exponentWidth d.digits d.scale

/-! ## The format, by its borders -/

example : layout .plain ⟨42, 0⟩ = ['4', '2', '.', '0'] := by decide
example : layout .plain ⟨4200, -3⟩ = ['4', '.', '2'] := by decide
example : layout .plain ⟨1, -4⟩ = ['0', '.', '0', '0', '0', '1'] := by decide
example : layout .plain ⟨1, -5⟩ = ['1', 'e', '-', '0', '5'] := by decide
example : layout .plain ⟨15, -8⟩ = ['1', '.', '5', 'e', '-', '0', '7'] := by decide
example : (layout .plain ⟨1, 15⟩).length = 18 := by decide
example : layout .plain ⟨1, 16⟩ = ['1', 'e', '+', '1', '6'] := by decide
example : layout .plain ⟨1, 100⟩ = ['1', 'e', '+', '1', '0', '0'] := by decide

end Decimal
end LambdaReader

import LambdaReader.Decimal.Layout
import LambdaReader.Text.Quoted

/-!
# `Decimal.Shortest` — the text of a float with the fewest digits

A float is written with the fewest significant digits that read back as it. Of two such decimals of
the same length the nearer one is taken, and of two equally near the one with the even last digit.
Candidates are the two neighbours of the exact value on the grids of 1, 2, … 17 significant digits,
computed exactly; each is set out as text and taken only if that very text reads back.

## Contents
- `Magnitude`, a positive binary number, and its `neighbours` on a decimal grid;
- `shortest?`, the search, and `read_shortest?`, its law;
- `floatText`, the text of any float.
-/

namespace LambdaReader
namespace Decimal

/-- The number `numerator / denominator`. -/
structure Magnitude where
  numerator : Nat
  denominator : Nat

namespace Magnitude

/-- The number `significand · 2 ^ exponent`. -/
def ofBinary (significand : Nat) (exponent : Int) : Magnitude :=
  if exponent < 0 then ⟨significand, Nat.pow 2 exponent.natAbs⟩
  else ⟨significand * Nat.pow 2 exponent.natAbs, 1⟩

/-- The size of a finite float, exactly, from its exponent and fraction bits. -/
def ofFloat (x : Float) : Magnitude :=
  let bits := x.toBits.toNat
  let fraction := bits % Nat.pow 2 52
  let biased : Nat := bits / Nat.pow 2 52 % Nat.pow 2 11
  if biased = 0 then ofBinary fraction (-1074)
  else ofBinary (Nat.pow 2 52 + fraction) ((biased : Int) - 1075)

/-- The power of ten that the first significant digit counts. -/
def scale (v : Magnitude) : Int :=
  if v.denominator ≤ v.numerator then
    (Nat.toDigits 10 (v.numerator / v.denominator)).length - 1
  else -(Nat.toDigits 10 ((v.denominator - 1) / v.numerator)).length

/-- The decimals with `n` significant digits just below and just above, the nearer one first; of two
equally near ones the even one first. -/
def neighbours (v : Magnitude) (n : Nat) : List Decimal :=
  let exponent := v.scale - n + 1
  let unit := Nat.pow 10 exponent.natAbs
  let numerator := if exponent < 0 then v.numerator * unit else v.numerator
  let denominator := if exponent < 0 then v.denominator else v.denominator * unit
  let below := numerator / denominator
  let rest := numerator % denominator
  let low : Decimal := ⟨below, exponent⟩
  let high : Decimal := ⟨below + 1, exponent⟩
  if 2 * rest < denominator ∨ 2 * rest = denominator ∧ below % 2 = 0 then [low, high]
  else [high, low]

end Magnitude

/-- The first text among those of the decimals that reads back as `x`. -/
def readingBack? (x : Float) (sign : List Char) (ds : List Decimal) : Option (List Char) :=
  (ds.map fun d => sign ++ d.layout .plain).find? fun t =>
    (readFloat? t).map Float.toBits == some x.toBits

/-- The texts of the floats that are no finite nonzero numbers. -/
def special? (x : Float) : Option (List Char) :=
  [['0', '.', '0'], ['-', '0', '.', '0'], ['i', 'n', 'f'], ['-', 'i', 'n', 'f']].find? fun t =>
    (readFloat? t).map Float.toBits == some x.toBits

/-- The text with the fewest digits that reads back as `x`. -/
def shortest? (x : Float) : Option (List Char) :=
  let sign := if x < 0 then ['-'] else []
  (special? x).or <|
    (List.range 17).findSome? fun n =>
      readingBack? x sign ((Magnitude.ofFloat x).neighbours (n + 1))

/-- What the search finds reads back as the float it was asked for. -/
theorem read_shortest? {x : Float} {t : List Char} (h : shortest? x = some t) :
    (readFloat? t).map Float.toBits = some x.toBits := by
  unfold shortest? at h
  rcases Option.or_eq_some_iff.mp h with h | ⟨_, h⟩
  · simpa using List.find?_some h
  · obtain ⟨n, _, h⟩ := List.exists_of_findSome?_eq_some h
    simpa using List.find?_some h

/-- The characters a float is written as. Seventeen digits always suffice; a float they did not reach
would be written by its bits. -/
def floatChars (x : Float) : List Char :=
  if x.isNaN then ['n', 'a', 'n']
  else (shortest? x).getD ('0' :: 'x' :: Text.hexDigits x.toBits.toNat 16)

/-- The text a float is written as. -/
def floatText (x : Float) : String := String.ofList (floatChars x)

end Decimal
end LambdaReader

import WireLayout.Float.Format

/-!
# Shortest decimal text

The text of a floating-point number is the shortest decimal that reads back as the same number. A decimal with `n` digits is a
point on a grid of spacing `10 ^ scale`; the first grid, from one digit up, with a point in the interval of numbers that round to
the given one decides how many digits are written. Only the two grid points next to the number need a test. Of two candidates the
nearer one is taken, and the upper one when both are equally near.
-/

namespace WireLayout

namespace Shortest

/-- A decimal `digits * 10 ^ scale`. -/
structure Decimal where
  digits : Nat
  scale : Int
  deriving DecidableEq, Repr

/-- `base ^ exponent` as numerator and denominator. -/
def power (base : Nat) (exponent : Int) : Nat × Nat :=
  if 0 ≤ exponent then (Nat.pow base exponent.toNat, 1) else (1, Nat.pow base (-exponent).toNat)

/-- The least `e` with `significand * 2 ^ exponent < 10 ^ e`, for a positive double-precision number. The binary logarithm times
`log10 2`, which 30103/100000 is close enough to for all exponents of the format, is at most one too small. -/
def decimalExponent (significand : Nat) (exponent : Int) : Int :=
  let estimate := (exponent + significand.log2) * 30103 / 100000
  let (twoNum, twoDen) := power 2 exponent
  let (tenNum, tenDen) := power 10 (estimate + 1)
  if tenNum * twoDen ≤ significand * twoNum * tenDen then estimate + 2 else estimate + 1

/-- The decimal on the grid of spacing `10 ^ scale` that stands for the number `significand * 2 ^ exponent`, if there is one.
All is measured in quarters of the number's last binary place, so that both halfway points are whole. -/
def onGrid? (significand : Nat) (exponent : Int) (scale : Int) : Option Decimal :=
  let (tenNum, tenDen) := power 10 scale
  let (twoNum, twoDen) := power 2 (exponent - 2)
  let grid := tenNum * twoDen
  let quarter := twoNum * tenDen
  let value := 4 * significand * quarter
  let isLowestOfBinade :=
    significand == FloatFormat.double.fractionRange && FloatFormat.double.minExponent < exponent
  let low := (4 * significand - (if isLowestOfBinade then 1 else 2)) * quarter
  let high := (4 * significand + 2) * quarter
  let inside (point : Nat) : Bool :=
    if significand % 2 = 0 then low ≤ point && point ≤ high else low < point && point < high
  let down := value / grid
  let up := down + 1
  match inside (down * grid), inside (up * grid) with
  | true, true => some ⟨if value - down * grid < up * grid - value then down else up, scale⟩
  | true, false => some ⟨down, scale⟩
  | false, true => some ⟨up, scale⟩
  | false, false => none

/-- Seventeen digits are enough for every double-precision number. -/
def maxDigits : Nat := 17

/-- The shortest decimal that stands for the positive number `significand * 2 ^ exponent`. -/
def ofMagnitude (significand : Nat) (exponent : Int) : Decimal :=
  let e := decimalExponent significand exponent
  ((List.range maxDigits).findSome? fun i => onGrid? significand exponent (e - (i + 1 : Nat))).getD ⟨0, 0⟩

/-- Drops zeros at the end. -/
def dropTrailingZeros (digits : List Char) : List Char :=
  (digits.reverse.dropWhile (· == '0')).reverse

/-- Positional notation: never an exponent, and no point without digits behind it. -/
def Decimal.text (d : Decimal) : String :=
  if 0 ≤ d.scale then toString (d.digits * Nat.pow 10 d.scale.toNat)
  else
    let places := (-d.scale).toNat
    let unit := Nat.pow 10 places
    let fraction := Nat.toDigits 10 (d.digits % unit)
    let padded := List.replicate (places - fraction.length) '0' ++ fraction
    let whole := toString (d.digits / unit)
    match dropTrailingZeros padded with
    | [] => whole
    | kept => whole ++ "." ++ String.ofList kept

/-- The text of a datum: the sign of zero is kept, and no number is signed. -/
def textOf : FloatDatum → String
  | .nan => "NaN"
  | .infinite negative => if negative then "-inf" else "inf"
  | .finite negative significand exponent =>
    (if negative then "-" else "") ++
      (if significand = 0 then "0" else (ofMagnitude significand exponent).text)

end Shortest

/-- The shortest decimal text that reads back as the same number. -/
def shortestText (x : Float) : String := Shortest.textOf (FloatDatum.ofFloat x)

end WireLayout

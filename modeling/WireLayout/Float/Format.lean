import WireLayout.Bytes

/-!
# Binary floating-point formats

A binary interchange format gives meaning to a bit pattern: a sign, a magnitude `significand * 2 ^ exponent`, an infinity or no
number at all (`FloatFormat.decode`). `FloatFormat.encode` goes back: it rounds a magnitude to the nearest one that the format
has, a tie to the even neighbour, and to infinity past the largest. Widening, narrowing and the conversion of integers are all one
decoding followed by one encoding, in exact arithmetic.
-/

namespace WireLayout

/-- What a bit pattern stands for. -/
inductive FloatDatum where
  /-- The number `significand * 2 ^ exponent`, or its negation; zero has a sign too. -/
  | finite (negative : Bool) (significand : Nat) (exponent : Int)
  | infinite (negative : Bool)
  | nan
  deriving DecidableEq, Repr

/-- A binary interchange format, given by the bits of its significand (the hidden one included) and of its exponent field. -/
structure FloatFormat where
  precision : Nat
  exponentBits : Nat
  deriving DecidableEq, Repr

namespace FloatFormat

/-- Four bytes: 24 bits of significand, 8 of exponent. -/
def single : FloatFormat := { precision := 24, exponentBits := 8 }

/-- Eight bytes: 53 bits of significand, 11 of exponent. -/
def double : FloatFormat := { precision := 53, exponentBits := 11 }

/-- One more than the largest significand: up to here no integer is skipped. -/
def significandRange (f : FloatFormat) : Nat := Nat.pow 2 f.precision

/-- One more than the largest fraction field. -/
def fractionRange (f : FloatFormat) : Nat := Nat.pow 2 (f.precision - 1)

/-- One more than the largest exponent field. -/
def fieldRange (f : FloatFormat) : Nat := Nat.pow 2 f.exponentBits

/-- The largest exponent field, kept for infinities and for what is no number. -/
def topField (f : FloatFormat) : Nat := f.fieldRange - 1

/-- The exponent of the smallest magnitudes. -/
def minExponent (f : FloatFormat) : Int := 3 - (f.fieldRange / 2 : Nat) - f.precision

/-- The weight of the sign bit. -/
def signBit (f : FloatFormat) : Nat := f.fractionRange * f.fieldRange

/-- The pattern of positive infinity, which follows that of the largest magnitude. -/
def infinity (f : FloatFormat) : Nat := f.topField * f.fractionRange

/-- The pattern that this format writes for what is no number. -/
def quietNaN (f : FloatFormat) : Nat := f.infinity + f.fractionRange / 2

/-- What a bit pattern stands for in this format. -/
def decode (f : FloatFormat) (bits : Nat) : FloatDatum :=
  let fraction := bits % f.fractionRange
  let field := bits / f.fractionRange % f.fieldRange
  let negative := bits / f.signBit % 2 == 1
  if field = f.topField then
    if fraction = 0 then .infinite negative else .nan
  else if field = 0 then .finite negative fraction f.minExponent
  else .finite negative (f.fractionRange + fraction) (f.minExponent + (field - 1 : Nat))

/-- `n / 2 ^ shift`, rounded to the nearest integer and a tie to the even one. -/
def shiftRightEven (n shift : Nat) : Nat :=
  let unit := Nat.pow 2 shift
  let floor := n / unit
  let double := 2 * (n % unit)
  if double > unit ∨ (double = unit ∧ floor % 2 = 1) then floor + 1 else floor

/-- The pattern of the magnitude nearest to `significand * 2 ^ exponent`. -/
def encodeMagnitude (f : FloatFormat) (significand : Nat) (exponent : Int) : Nat :=
  if significand = 0 then 0
  else
    let top := max (exponent + (significand.log2 + 1 : Nat) - f.precision) f.minExponent
    let kept :=
      if top ≤ exponent then significand <<< (exponent - top).toNat
      else shiftRightEven significand (top - exponent).toNat
    min ((top - f.minExponent).toNat * f.fractionRange + kept) f.infinity

/-- The bit pattern of a datum. -/
def encode (f : FloatFormat) : FloatDatum → Nat
  | .nan => f.quietNaN
  | .infinite negative => (if negative then f.signBit else 0) + f.infinity
  | .finite negative significand exponent =>
    (if negative then f.signBit else 0) + f.encodeMagnitude significand exponent

end FloatFormat

namespace FloatDatum

/-- The datum of an integer. -/
def ofInt (n : Int) : FloatDatum := .finite (n < 0) n.natAbs 0

/-- The datum of a double-precision number. -/
def ofFloat (x : Float) : FloatDatum := FloatFormat.double.decode x.toBits.toNat

/-- The double-precision number nearest to a datum. -/
def toFloat (d : FloatDatum) : Float := Float.ofBits (UInt64.ofNat (FloatFormat.double.encode d))

/-- The magnitude of a finite datum without its fractional part. -/
def wholePart (significand : Nat) (exponent : Int) : Nat :=
  if 0 ≤ exponent then significand <<< exponent.toNat else significand >>> (-exponent).toNat

/-- The integer between zero and a finite datum that is nearest to it. -/
def truncate? : FloatDatum → Option Int
  | .finite negative significand exponent =>
    some (if negative then -(wholePart significand exponent : Int) else wholePart significand exponent)
  | _ => none

/-- The value of a datum that is a whole number and not negative; negative zero counts as zero. -/
def wholeNumber? : FloatDatum → Option Nat
  | .finite negative significand exponent =>
    if (negative ∧ significand ≠ 0) ∨ (exponent < 0 ∧ significand % Nat.pow 2 (-exponent).toNat ≠ 0) then none
    else some (wholePart significand exponent)
  | _ => none

end FloatDatum

end WireLayout

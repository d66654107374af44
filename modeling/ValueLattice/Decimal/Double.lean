import ValueLattice.Decimal.Shortest
/-!
# Doubles

Floating-point numbers of 64 bits, given by their bits: one for the sign, eleven for the
exponent and fifty-two for the fraction. Two of them are taken for equal when they are the
same, both zero or both not a number.

* `Double.canonical`: the same bits for all doubles that are taken for equal;
* `Double.text`: the fewest digits that identify the number, with a point and at least one
  digit after it, positionally from `0.0001` up to below `10 ^ 16` and otherwise with an
  exponent.
-/

namespace ValueLattice

/-- A floating-point number of 64 bits. -/
structure Double where
  bits : UInt64
  deriving DecidableEq, Inhabited

namespace Double

/-- Whether the sign bit is set. -/
def negative (d : Double) : Bool := Nat.pow 2 63 ≤ d.bits.toNat

/-- The eleven bits of the exponent. -/
def exponentBits (d : Double) : Nat := d.bits.toNat / Nat.pow 2 52 % Nat.pow 2 11

/-- The fifty-two bits of the fraction. -/
def fraction (d : Double) : Nat := d.bits.toNat % Nat.pow 2 52

/-- Whether the double is not a number. -/
def isNaN (d : Double) : Bool := d.exponentBits = 2047 && d.fraction ≠ 0

/-- Whether the double is one of the two infinities. -/
def isInfinite (d : Double) : Bool := d.exponentBits = 2047 && d.fraction = 0

/-- Whether the double is one of the two zeros. -/
def isZero (d : Double) : Bool := d.exponentBits = 0 && d.fraction = 0

/-- The bits of the double, with one representative for both zeros and one for all that are
not a number. -/
def canonical (d : Double) : UInt64 :=
  if d.isZero then 0 else if d.isNaN then 0x7ff8000000000000 else d.bits

/-- The equality of doubles as values: no zero differs from the other, and what is not a
number equals itself. -/
def alike (d e : Double) : Bool := d.canonical = e.canonical

/-- The reals that round to the magnitude of a finite double other than zero. -/
def interval (d : Double) : Decimal.Interval :=
  if d.exponentBits = 0 then .around d.fraction (-1074) false
  else
    .around (Nat.pow 2 52 + d.fraction) (d.exponentBits - 1075)
      (d.fraction = 0 && 1 < d.exponentBits)

/-! ## Text -/

/-- A run of zeros. -/
def zeros (n : Nat) : String := String.ofList (List.replicate n '0')

/-- The digits of a decimal with the point in its place, and at least one digit behind it. -/
def positional (digits : List Char) (exponent : Int) : String :=
  let lead : Int := exponent + digits.length
  if 0 ≤ exponent then String.ofList digits ++ zeros exponent.toNat ++ ".0"
  else if 0 < lead then
    String.ofList (digits.take lead.toNat) ++ "." ++ String.ofList (digits.drop lead.toNat)
  else "0." ++ zeros (-lead).toNat ++ String.ofList digits

/-- The digits of a decimal with the point after the first, and the exponent of that digit. -/
def scientific (digits : List Char) (exponent : Int) : String :=
  let lead : Int := exponent + digits.length - 1
  let point := if digits.length ≤ 1 then "" else "."
  String.ofList (digits.take 1) ++ point ++ String.ofList (digits.drop 1) ++ "e" ++ toString lead

/-- The text of a decimal. -/
def decimalText (d : Decimal.Scaled) : String :=
  let digits := Nat.toDigits 10 d.digits
  let lead : Int := d.exponent + digits.length - 1
  if -4 ≤ lead ∧ lead < 16 then positional digits d.exponent else scientific digits d.exponent

/-- The text of a double. -/
def text (d : Double) : String :=
  if d.isNaN then "NaN"
  else
    let sign := if d.negative then "-" else ""
    if d.isInfinite then sign ++ "inf"
    else if d.isZero then sign ++ "0.0"
    else sign ++ decimalText d.interval.shortest

end Double

end ValueLattice

/-!
Decimal numbers written as a coefficient and a power of ten, and the decimal digits of natural
numbers. Main definitions: `Decimal`, `digitsOf`, which writes a natural number, `valueOfDigits`,
which reads one, and `Decimal.numerator` and `Decimal.denominator`, the value as a fraction.
-/

set_option autoImplicit false
set_option relaxedAutoImplicit false

namespace Formulary

/-- The decimal digits of a natural number, without leading zeros; zero is the digit `0`. -/
def digitsOf (value : Nat) : List Char :=
  Nat.toDigits 10 value

/-- The value of one decimal digit. -/
def digitValue (digit : Char) : Nat :=
  digit.toNat - '0'.toNat

/-- The natural number that a run of decimal digits denotes; the empty run denotes zero. -/
def valueOfDigits (digits : List Char) : Nat :=
  digits.foldl (fun value digit ↦ 10 * value + digitValue digit) 0

/-- The decimal digits of an integer after its sign: a minus for the negative ones. -/
def signedDigitsOf (value : Int) : List Char :=
  if value < 0 then '-' :: digitsOf value.natAbs else digitsOf value.natAbs

/-- The digits of a natural number, filled with leading zeros up to a width. -/
def paddedDigitsOf (width value : Nat) : List Char :=
  let digits := digitsOf value
  List.replicate (width - digits.length) '0' ++ digits

/-- A non-negative decimal: a coefficient times a power of ten. -/
structure Decimal where
  coefficient : Nat
  exponent : Int
deriving DecidableEq, Repr

namespace Decimal

/-- The numerator of the decimal as a fraction. -/
def numerator (decimal : Decimal) : Nat :=
  decimal.coefficient * Nat.pow 10 decimal.exponent.toNat

/-- The denominator of the decimal as a fraction. -/
def denominator (decimal : Decimal) : Nat :=
  Nat.pow 10 (-decimal.exponent).toNat

/-- The decimal lies below ten to its order, and, unless it is zero, not below a tenth of that. -/
def order (decimal : Decimal) : Int :=
  (digitsOf decimal.coefficient).length + decimal.exponent

end Decimal

end Formulary

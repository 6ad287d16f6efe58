import Formulary.Decimal
import Formulary.Number
/-!
Reading a decimal as a binary number: the nearest number of double precision, a half going to the
even neighbour, and infinity beyond the range. Main definitions: `roundToEven`, the rounded
quotient, `nearestMagnitude`, and `Number.ofDecimal`.
-/

set_option autoImplicit false
set_option relaxedAutoImplicit false

namespace Formulary

/-- The quotient rounded to the nearest natural number, a half to the even one. -/
def roundToEven (numerator denominator : Nat) : Nat :=
  let quotient := numerator / denominator
  let remainder := numerator % denominator
  if 2 * remainder < denominator then quotient
  else if denominator < 2 * remainder then quotient + 1
  else quotient + quotient % 2

/-- The exponent of the greatest power of two that is not above a positive fraction. -/
def floorLog2 (numerator denominator : Nat) : Int :=
  let guess : Int := (Nat.log2 numerator : Int) - Nat.log2 denominator
  if denominator * Nat.pow 2 guess.toNat ≤ numerator * Nat.pow 2 (-guess).toNat then guess
  else guess - 1

/-- The magnitude nearest to a fraction. Beside the significand rounded to its last place, the
exponent counts in units of that place, so a carry out of the significand raises the exponent. -/
def nearestMagnitude (numerator denominator : Nat) : Nat :=
  if numerator = 0 then
    0
  else
    let scale := max (floorLog2 numerator denominator - 52) (-1074)
    let significand :=
      roundToEven (numerator * Nat.pow 2 (-scale).toNat) (denominator * Nat.pow 2 scale.toNat)
    min ((scale + 1074).toNat * leadingBit + significand) infiniteMagnitude

namespace Decimal

/-- The magnitude nearest to a decimal. Decimals whose order is far outside the range need no
arithmetic. -/
def nearestMagnitude (decimal : Decimal) : Nat :=
  if decimal.coefficient = 0 ∨ decimal.order < -330 then 0
  else if 310 < decimal.order then infiniteMagnitude
  else Formulary.nearestMagnitude decimal.numerator decimal.denominator

end Decimal

namespace Number

/-- The number nearest to a signed decimal. -/
def ofDecimal (negative : Bool) (decimal : Decimal) : Number :=
  ofMagnitude negative decimal.nearestMagnitude

end Number

end Formulary

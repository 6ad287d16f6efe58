import Formulary.Number.Nearest
/-!
Scaling by powers of ten in the arithmetic of double precision. Each power of ten, each product and
each quotient is rounded on its own, so what comes out need not be the number nearest to the scaled
value, and it may be out of range where that number is not. Main definitions: `productMagnitude`,
`quotientMagnitude`, `powerOfTen` and `scaledMagnitude?`.
-/

set_option autoImplicit false
set_option relaxedAutoImplicit false

namespace Formulary.Number

/-- The product of two finite magnitudes, rounded. -/
def productMagnitude (first second : Nat) : Nat :=
  nearestMagnitude ((fraction first).1 * (fraction second).1)
    ((fraction first).2 * (fraction second).2)

/-- The quotient of two finite magnitudes, rounded. The divisor is not zero. -/
def quotientMagnitude (dividend divisor : Nat) : Nat :=
  nearestMagnitude ((fraction dividend).1 * (fraction divisor).2)
    ((fraction dividend).2 * (fraction divisor).1)

/-- The greatest exponent of a power of ten that is in range. -/
def greatestPower : Nat := 308

/-- A power of ten, rounded. -/
def powerOfTen (exponent : Nat) : Nat :=
  nearestMagnitude (Nat.pow 10 exponent) 1

/-- A magnitude divided by the greatest power of ten, a number of times or until it is zero. -/
def lowered (magnitude : Nat) : Nat → Nat
  | 0 => magnitude
  | count + 1 =>
    if magnitude = 0 then 0
    else lowered (quotientMagnitude magnitude (powerOfTen greatestPower)) count

/-- A finite magnitude times a power of ten, unless that is out of range. It is multiplied once; to
divide it, the greatest power is taken away from the exponent until what is left is a power. -/
def scaledMagnitude? (magnitude : Nat) (exponent : Int) : Option Nat :=
  if exponent < 0 then
    let count := (exponent.natAbs - 1) / greatestPower
    let rest := exponent.natAbs - count * greatestPower
    some (quotientMagnitude (lowered magnitude count) (powerOfTen rest))
  else if exponent ≤ greatestPower then
    let product := productMagnitude magnitude (powerOfTen exponent.toNat)
    if product < infiniteMagnitude then some product else none
  else if magnitude = 0 then
    some 0
  else
    none

end Formulary.Number

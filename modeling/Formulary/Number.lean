/-!
Binary numbers of double precision: the finite ones, a zero of either sign, and the two
infinities. The 63 bits under the sign order the numbers of one sign as their values do, so a
number is a sign and such a magnitude, and what is not a number is excluded by the bound. Main
definitions: `Number`, `Number.fraction`, the exact value, and `Number.bits`, the interchange word.
-/

set_option autoImplicit false
set_option relaxedAutoImplicit false

namespace Formulary

/-- The weight of the leading bit of a significand, and the count of the numbers that share a
binary exponent. -/
def leadingBit : Nat := 0x10000000000000

/-- The magnitude of the two infinities. -/
def infiniteMagnitude : Nat := 0x7FF0000000000000

/-- A number of double precision that is not a NaN. -/
structure Number where
  negative : Bool
  magnitude : Nat
  le_infinite : magnitude ≤ infiniteMagnitude
deriving DecidableEq, Repr

namespace Number

/-- The number with a sign and a magnitude, which is cut off at infinity. -/
def ofMagnitude (negative : Bool) (magnitude : Nat) : Number :=
  ⟨negative, min magnitude infiniteMagnitude, Nat.min_le_right _ _⟩

/-- Whether the number is not infinite. -/
def isFinite (number : Number) : Bool :=
  number.magnitude < infiniteMagnitude

/-- The 64 bits of the interchange format. -/
def bits (number : Number) : Nat :=
  if number.negative then 0x8000000000000000 + number.magnitude else number.magnitude

/-- The significand of a magnitude, with its leading bit. -/
def significand (magnitude : Nat) : Nat :=
  if magnitude < leadingBit then magnitude else leadingBit + magnitude % leadingBit

/-- The power of two that the significand of a magnitude is a multiple of. -/
def scale (magnitude : Nat) : Int :=
  max (magnitude / leadingBit : Nat) 1 - 1075

/-- The value of a finite magnitude, as a numerator and a denominator. -/
def fraction (magnitude : Nat) : Nat × Nat :=
  (significand magnitude * Nat.pow 2 (scale magnitude).toNat, Nat.pow 2 (-scale magnitude).toNat)

/-- The same number with a zero made positive. -/
def withoutZeroSign (number : Number) : Number :=
  if number.magnitude = 0 then ofMagnitude false 0 else number

end Number

end Formulary

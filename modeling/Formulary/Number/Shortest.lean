import Formulary.Number.Nearest
/-!
The shortest decimal that reads back. For one digit, two digits and so on, the two neighbours of a
number on that decimal grid are tried; the first grid with a neighbour that is read as the number
wins, of two such neighbours the nearer one, and of two equally near ones the one that the tie
rule names. Main definitions: `Tie`, `decimalPoint`, `neighbour?` and `shortestDecimal`.
-/

set_option autoImplicit false
set_option relaxedAutoImplicit false

namespace Formulary

/-- Which of two equally near decimals is written. -/
inductive Tie
  | upper
  | even
deriving DecidableEq, Repr

namespace Number

/-- Where the decimal point stands in the digits of a finite magnitude: the least exponent whose
power of ten is above the value. The binary exponent times the logarithm of two is at most one
off. -/
def decimalPoint (magnitude : Nat) : Int :=
  let (numerator, denominator) := fraction magnitude
  let guess := (floorLog2 numerator denominator * 30103) / 100000
  let below (point : Int) : Bool :=
    numerator * Nat.pow 10 (-point).toNat < denominator * Nat.pow 10 point.toNat
  ([guess - 1, guess, guess + 1].find? below).getD (guess + 2)

/-- The neighbour of a magnitude with a number of digits that is read as the magnitude. -/
def neighbour? (tie : Tie) (magnitude digitCount : Nat) : Option Decimal :=
  let (numerator, denominator) := fraction magnitude
  let step := decimalPoint magnitude - digitCount
  let dividend := numerator * Nat.pow 10 (-step).toNat
  let divisor := denominator * Nat.pow 10 step.toNat
  let quotient := dividend / divisor
  let remainder := dividend % divisor
  let lower : Decimal := ⟨quotient, step⟩
  let upper : Decimal := ⟨quotient + 1, step⟩
  let upperFirst :=
    divisor < 2 * remainder ||
      divisor == 2 * remainder && (tie == .upper || quotient % 2 == 1)
  let candidates := if upperFirst then [upper, lower] else [lower, upper]
  candidates.find? fun decimal ↦ decimal.nearestMagnitude == magnitude

/-- The exact value of a finite magnitude as a decimal. -/
def exactDecimal (magnitude : Nat) : Decimal :=
  if 0 ≤ scale magnitude then
    ⟨significand magnitude * Nat.pow 2 (scale magnitude).toNat, 0⟩
  else
    ⟨significand magnitude * Nat.pow 5 (-scale magnitude).toNat, scale magnitude⟩

/-- The shortest decimal that is read as a finite magnitude. Seventeen digits always suffice. -/
def shortestDecimal (tie : Tie) (magnitude : Nat) : Decimal :=
  if magnitude = 0 then
    ⟨0, 0⟩
  else
    ((List.range' 1 17).findSome? (neighbour? tie magnitude)).getD (exactDecimal magnitude)

end Number

end Formulary

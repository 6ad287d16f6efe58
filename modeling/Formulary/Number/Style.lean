import Formulary.Number.Shortest
/-!
The two written styles of a number. Both write the shortest digits that read back and always show
that the number is not an integer, by a point or an exponent. Formulas write every number
positionally; the exchange format turns to an exponent outside a range of sizes. Main definitions:
`NumberStyle`, its two values `formulaStyle` and `exchangeStyle`, and `NumberStyle.write`.
-/

set_option autoImplicit false
set_option relaxedAutoImplicit false

namespace Formulary

/-- How a finite number is laid out: the tie rule of its digits, and the places of the decimal
point for which it is written without an exponent. -/
structure NumberStyle where
  tie : Tie
  isPositional : Int → Bool

/-- Formulas round a tie up and never write an exponent. -/
def formulaStyle : NumberStyle :=
  ⟨.upper, fun _ ↦ true⟩

/-- The exchange format rounds a tie to the even digit. It writes an exponent from ten to the
sixteenth upwards, and for five or more zeros between the point and the first digit. -/
def exchangeStyle : NumberStyle :=
  ⟨.even, fun point ↦ -5 < point && point ≤ 16⟩

/-- The digits of a coefficient without its trailing zeros; zero keeps its one digit. -/
def significantDigits (coefficient : Nat) : List Char :=
  if coefficient = 0 then ['0'] else ((digitsOf coefficient).reverse.dropWhile (· == '0')).reverse

/-- Digits around a decimal point, with at least one digit on either side of it. -/
def positional (digits : List Char) (point : Int) : List Char :=
  if point ≤ 0 then
    '0' :: '.' :: (List.replicate (-point).toNat '0' ++ digits)
  else if digits.length ≤ point.toNat then
    digits ++ List.replicate (point.toNat - digits.length) '0' ++ ['.', '0']
  else
    digits.take point.toNat ++ '.' :: digits.drop point.toNat

/-- Digits with the point after the first one, if there are more, and the power of ten that puts it
right, which always has a sign. -/
def scientific (digits : List Char) (point : Int) : List Char :=
  let mantissa :=
    match digits with
    | leading :: second :: others => leading :: '.' :: second :: others
    | few => few
  let power := point - 1
  mantissa ++ 'e' :: (if power < 0 then '-' else '+') :: digitsOf power.natAbs

namespace NumberStyle

/-- The text of a finite magnitude. -/
def writeMagnitude (style : NumberStyle) (magnitude : Nat) : List Char :=
  let decimal := Number.shortestDecimal style.tie magnitude
  let digits := significantDigits decimal.coefficient
  let point := decimal.order
  if style.isPositional point then positional digits point else scientific digits point

/-- The text of a number: its sign, then its digits, or `inf` for infinity. -/
def write (style : NumberStyle) (number : Number) : List Char :=
  let body := if number.isFinite then style.writeMagnitude number.magnitude else ['i', 'n', 'f']
  if number.negative then '-' :: body else body

end NumberStyle

end Formulary

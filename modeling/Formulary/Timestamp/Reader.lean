import Formulary.Decimal
import Formulary.Text.Blank
import Formulary.Text.Scan
import Formulary.Timestamp
/-!
Reading timestamps. A number may follow blanks and need not be filled with zeros; the text has to
be used up. Formulas know three forms: a date and a time joined by `T`, the two set apart by
blanks, and a bare date for its midnight. The exchange format knows the first form alone, but with
a fraction of a second and with blanks before each mark. Main definitions:
`Timestamp.ofFormulaText?` and `Timestamp.ofExchangeText?`.
-/

set_option autoImplicit false
set_option relaxedAutoImplicit false

namespace Formulary.Timestamp

open Text Scan

namespace Reader

/-- Blanks, of which there need not be any. -/
def blanks : Scan Unit := fun text ↦ some ((), dropBlanks text)

/-- A number of at least one digit and at most a number of them. -/
def unsigned (most : Nat) : Scan Nat := do
  let found ← digits most
  if found.isEmpty then failure else pure (valueOfDigits found)

/-- A number of one or two digits. -/
def twoDigits : Scan Nat := do
  blanks
  unsigned 2

/-- A year: up to four digits, or a sign and any number of digits. -/
def year : Scan Int := do
  blanks
  fun text ↦
    match text with
    | '-' :: rest => (unsigned rest.length rest).map fun (value, rest) ↦ (-(value : Int), rest)
    | '+' :: rest => (unsigned rest.length rest).map fun (value, rest) ↦ ((value : Int), rest)
    | _ => (unsigned 4 text).map fun (value, rest) ↦ ((value : Int), rest)

/-- A date, with a scanner for what may stand before its hyphens. -/
def date (gap : Scan Unit) : Scan Date := do
  let year ← year
  gap
  mark '-'
  let month ← twoDigits
  gap
  mark '-'
  let day ← twoDigits
  StateT.lift (Date.ofParts? year month day)

/-- The billionths that the digits after a point denote; those after the ninth do not count. -/
def billionths : Scan Nat
  | '.' :: text => do
    let (found, rest) ← digits 9 text
    if found.isEmpty then
      none
    else
      some (valueOfDigits found * Nat.pow 10 (9 - found.length), rest.dropWhile Char.isDigit)
  | text => some (0, text)

/-- A time of day, with scanners for what may stand before its colons and for its fraction. -/
def dayTime (gap : Scan Unit) (fraction : Scan Nat) : Scan DayTime := do
  let hour ← twoDigits
  gap
  mark ':'
  let minute ← twoDigits
  gap
  mark ':'
  let second ← twoDigits
  let nanosecond ← fraction
  StateT.lift (DayTime.ofParts? hour minute second nanosecond)

/-- A date and a time with something between them. -/
def dateAndTime (gap between : Scan Unit) (fraction : Scan Nat) : Scan Timestamp := do
  let date ← date gap
  between
  let time ← dayTime gap fraction
  pure ⟨date, time⟩

end Reader

open Reader

/-- The timestamp that a text in a formula denotes. -/
def ofFormulaText? (text : List Char) : Option Timestamp :=
  whole (dateAndTime (pure ()) (mark 'T') (pure 0)) text <|>
    whole (dateAndTime (pure ()) blanks (pure 0)) text <|>
      (whole (Reader.date (pure ())) text).map fun date ↦ ⟨date, .midnight⟩

/-- The timestamp that a text in the exchange format denotes. -/
def ofExchangeText? (text : List Char) : Option Timestamp :=
  whole
    (do
      let timestamp ← dateAndTime blanks (do blanks; mark 'T') billionths
      blanks
      pure timestamp)
    text

end Formulary.Timestamp

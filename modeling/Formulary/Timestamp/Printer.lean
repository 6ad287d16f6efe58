import Formulary.Decimal
import Formulary.Timestamp
/-!
Writing timestamps. Formulas write a bare date at midnight and otherwise a date and a time to the
second; the exchange format always writes the time, with as many places of its fraction as are
needed in groups of three. Main definitions: `Timestamp.formulaText` and `Timestamp.exchangeText`.
-/

set_option autoImplicit false
set_option relaxedAutoImplicit false

namespace Formulary

/-- A year of at most four digits is filled up to four; any other year has a sign as well. -/
def yearText (year : Int) : List Char :=
  if 0 ≤ year ∧ year ≤ 9999 then
    paddedDigitsOf 4 year.natAbs
  else
    (if year < 0 then '-' else '+') :: paddedDigitsOf 4 year.natAbs

/-- Year, month and day with hyphens between them. -/
def Date.text (date : Date) : List Char :=
  yearText date.year ++ '-' :: paddedDigitsOf 2 date.month ++ '-' :: paddedDigitsOf 2 date.day

/-- Hour, minute and second with colons between them. -/
def DayTime.text (time : DayTime) : List Char :=
  paddedDigitsOf 2 time.hour ++ ':' :: paddedDigitsOf 2 time.minute ++
    ':' :: paddedDigitsOf 2 time.second

/-- The fraction of a second after its point: thousandths, millionths or billionths, whichever are
the first to be exact, and nothing if there is no fraction. -/
def DayTime.fractionText (time : DayTime) : List Char :=
  if time.nanosecond = 0 then []
  else if time.nanosecond % 1000000 = 0 then
    '.' :: paddedDigitsOf 3 (time.nanosecond / 1000000)
  else if time.nanosecond % 1000 = 0 then
    '.' :: paddedDigitsOf 6 (time.nanosecond / 1000)
  else
    '.' :: paddedDigitsOf 9 time.nanosecond

namespace Timestamp

/-- The text of a timestamp in a formula, without its quotes. -/
def formulaText (timestamp : Timestamp) : List Char :=
  if timestamp.time = .midnight then
    timestamp.date.text
  else
    timestamp.date.text ++ 'T' :: timestamp.time.text

/-- The text of a timestamp in the exchange format, without its quotes. -/
def exchangeText (timestamp : Timestamp) : List Char :=
  timestamp.date.text ++ 'T' :: timestamp.time.text ++ timestamp.time.fractionText

end Timestamp

end Formulary

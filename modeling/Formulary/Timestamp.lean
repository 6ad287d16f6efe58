/-!
Timestamps: a day of the Gregorian calendar and a time of that day. A minute may have a sixty-first
second, the leap second. Main definitions: `Date`, `DayTime` and `Timestamp`, which carry the proof
that their parts are in range, and `Date.ofParts?` and `DayTime.ofParts?`, which check them.
-/

set_option autoImplicit false
set_option relaxedAutoImplicit false

namespace Formulary

/-- A year is a leap year if four divides it, unless a hundred does and four hundred does not. -/
def isLeapYear (year : Int) : Bool :=
  year % 4 == 0 && (year % 100 != 0 || year % 400 == 0)

/-- The number of days of a month, counted from one; there is no other month. -/
def daysInMonth (year : Int) (month : Nat) : Nat :=
  match month with
  | 1 | 3 | 5 | 7 | 8 | 10 | 12 => 31
  | 4 | 6 | 9 | 11 => 30
  | 2 => if isLeapYear year then 29 else 28
  | _ => 0

/-- Whether a year, a month and a day name a day within the years that are represented. -/
def isDate (year : Int) (month day : Nat) : Bool :=
  -262143 ≤ year && year ≤ 262142 && 1 ≤ day && day ≤ daysInMonth year month

/-- Whether an hour, a minute, a second and its billionths name a time of day. -/
def isDayTime (hour minute second nanosecond : Nat) : Bool :=
  hour < 24 && minute < 60 && second ≤ 60 && nanosecond < 1000000000

/-- A day of the calendar. -/
structure Date where
  year : Int
  month : Nat
  day : Nat
  valid : isDate year month day = true
deriving DecidableEq, Repr

/-- A time of day to the billionth of a second. -/
structure DayTime where
  hour : Nat
  minute : Nat
  second : Nat
  nanosecond : Nat
  valid : isDayTime hour minute second nanosecond = true
deriving DecidableEq, Repr

/-- A day and a time of that day. -/
structure Timestamp where
  date : Date
  time : DayTime
deriving DecidableEq, Repr

/-- The day with these parts, if there is one. -/
def Date.ofParts? (year : Int) (month day : Nat) : Option Date :=
  if h : isDate year month day = true then some ⟨year, month, day, h⟩ else none

/-- The time with these parts, if there is one. -/
def DayTime.ofParts? (hour minute second nanosecond : Nat) : Option DayTime :=
  if h : isDayTime hour minute second nanosecond = true then
    some ⟨hour, minute, second, nanosecond, h⟩
  else
    none

/-- The beginning of a day. -/
def DayTime.midnight : DayTime :=
  ⟨0, 0, 0, 0, rfl⟩

end Formulary

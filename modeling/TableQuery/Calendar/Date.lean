import TableQuery.Text.Bytes

/-!
# The calendar

Days are counted from 1 January 1970, negative before it, and the calendar is the Gregorian one carried
back without limit. `Date.ofDay` and `Date.toDay` go between a day's number and its date.

Months are numbered too, twelve a year: `monthOf` gives the number of a day's month and `firstOfMonth`
the first day of a numbered month, so a step of months is an addition.
-/

namespace TableQuery

/-- A day, as its distance from 1 January 1970. -/
abbrev Day := Int

/-- A day of the calendar. -/
structure Date where
  year : Int
  /-- From 1 to 12. -/
  month : Nat
  /-- From 1. -/
  day : Nat
deriving Repr, DecidableEq

namespace Date

/-- Whether a year has 366 days. -/
def isLeap (year : Int) : Bool := year % 4 == 0 && (year % 100 != 0 || year % 400 == 0)

/-- The days from 1 January of year 1 to 1 January of a year. -/
def daysBeforeYear (year : Int) : Int :=
  let y := year - 1
  365 * y + y / 4 - y / 100 + y / 400

/-- The days from 1 January of year 1 to 1 January 1970. -/
def epoch : Int := 719162

/-- The days of a year before the first of each month. -/
def monthStarts (leap : Bool) : List Nat :=
  if leap then [0, 31, 60, 91, 121, 152, 182, 213, 244, 274, 305, 335]
  else [0, 31, 59, 90, 120, 151, 181, 212, 243, 273, 304, 334]

/-- The days of a year before the first of a month, from 1 to 12. -/
def daysBeforeMonth (leap : Bool) (month : Nat) : Nat := (monthStarts leap)[month - 1]?.getD 0

/-- The day of a date. -/
def toDay (d : Date) : Day :=
  daysBeforeYear d.year - epoch + daysBeforeMonth (isLeap d.year) d.month + d.day - 1

/-- The year of a day, and the day's place in it from 0. The four hundred years of a full cycle are
three centuries of 36524 days and one of 36525; four years are 1461 days. -/
def yearAndPlace (day : Day) : Int × Nat :=
  let n := day + epoch
  let cycle := n / 146097
  let inCycle := n % 146097
  let century := min 3 (inCycle / 36524)
  let inCentury := inCycle - 36524 * century
  let four := inCentury / 1461
  let inFour := inCentury % 1461
  let one := min 3 (inFour / 365)
  (400 * cycle + 100 * century + 4 * four + one + 1, (inFour - 365 * one).toNat)

/-- The date of a day. -/
def ofDay (day : Day) : Date :=
  let (year, place) := yearAndPlace day
  let month := ((monthStarts (isLeap year)).filter (· ≤ place)).length
  { year, month, day := place - daysBeforeMonth (isLeap year) month + 1 }

/-- An integer in at least `width` places, zeros in front and a minus sign counted. -/
def padded (width : Nat) (n : Int) : Bytes :=
  if n < 0 then Ascii.minus :: Bytes.ofNatPadded (width - 1) n.natAbs
  else Bytes.ofNatPadded width n.natAbs

end Date

namespace Day

/-- The place of a day in its week, which starts on a Monday. -/
def weekday (day : Day) : Int := (day + 3) % 7

/-- The Monday of a day's week. -/
def startOfWeek (day : Day) : Day := day - weekday day

/-- The number of a day's month. -/
def monthOf (day : Day) : Int :=
  let d := Date.ofDay day
  12 * d.year + ((d.month : Int) - 1)

/-- The first day of a numbered month. -/
def firstOfMonth (month : Int) : Day :=
  Date.toDay { year := month / 12, month := (month % 12).toNat + 1, day := 1 }

/-- A day's midnight in UTC, as text. -/
def toIso (day : Day) : Bytes :=
  let d := Date.ofDay day
  Date.padded 4 d.year ++ Ascii.minus :: Bytes.ofNatPadded 2 d.month
    ++ Ascii.minus :: Bytes.ofNatPadded 2 d.day ++ "T00:00:00.000Z"

end Day

end TableQuery

/-!
# The calendar

Days of the proleptic Gregorian calendar, counted from 1 January 1970.
-/

namespace QueryTree.Calendar

/-- The first year that has dates. -/
def minYear : Int := -262143
/-- The last year that has dates. -/
def maxYear : Int := 262142

/-- Whether a year has a 29 February. -/
def isLeap (year : Int) : Bool :=
  year % 4 == 0 && (year % 100 != 0 || year % 400 == 0)

/-- The number of days in `month`, counted from one. -/
def daysInMonth (year : Int) (month : Nat) : Nat :=
  match month with
  | 2 => if isLeap year then 29 else 28
  | 4 | 6 | 9 | 11 => 30
  | _ => 31

/-- A day of the calendar. -/
structure Date where
  year : Int
  month : Nat
  day : Nat
deriving DecidableEq, Repr

/-- Whether `d` exists and its year is in range. -/
def Date.isValid (d : Date) : Bool :=
  minYear ≤ d.year && d.year ≤ maxYear && 1 ≤ d.month && d.month ≤ 12 && 1 ≤ d.day &&
    d.day ≤ daysInMonth d.year d.month

/-- Days since 1 January 1970. Years are counted from March, so that a leap day is the last day of
its year, and in cycles of 400 years, which all have 146097 days. -/
def Date.toDays (d : Date) : Int :=
  let y : Int := if d.month ≤ 2 then d.year - 1 else d.year
  let cycle := y / 400
  let yearOfCycle := y % 400
  let fromMarch : Int := if 2 < d.month then (d.month : Int) - 3 else (d.month : Int) + 9
  let dayOfYear := (153 * fromMarch + 2) / 5 + (d.day : Int) - 1
  let dayOfCycle := yearOfCycle * 365 + yearOfCycle / 4 - yearOfCycle / 100 + dayOfYear
  cycle * 146097 + dayOfCycle - 719468

/-- The date `days` after 1 January 1970. -/
def Date.ofDays (days : Int) : Date :=
  let z := days + 719468
  let cycle := z / 146097
  let dayOfCycle := z % 146097
  let yearOfCycle := (dayOfCycle - dayOfCycle / 1460 + dayOfCycle / 36524 - dayOfCycle / 146096)
    / 365
  let dayOfYear := dayOfCycle - (365 * yearOfCycle + yearOfCycle / 4 - yearOfCycle / 100)
  let fromMarch := (5 * dayOfYear + 2) / 153
  let day := dayOfYear - (153 * fromMarch + 2) / 5 + 1
  let month := if fromMarch < 10 then fromMarch + 3 else fromMarch - 9
  let year := yearOfCycle + cycle * 400
  ⟨if month ≤ 2 then year + 1 else year, month.toNat, day.toNat⟩

def minDay : Int := Date.toDays ⟨minYear, 1, 1⟩
def maxDay : Int := Date.toDays ⟨maxYear, 12, 31⟩

/-- Whether the calendar has the day `days` after 1 January 1970. -/
def inRange (days : Int) : Bool :=
  minDay ≤ days && days ≤ maxDay

end QueryTree.Calendar

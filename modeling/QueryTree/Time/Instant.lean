import QueryTree.Text.Basic
import QueryTree.Time.Calendar

/-!
# Instants

A point in time in universal time, to the nanosecond, with its text form `2025-05-15T10:20:30.123Z`.
-/

namespace QueryTree

def Instant.secondsPerDay : Nat := 86400
/-- Nanoseconds in a second. -/
def Instant.nanosPerSecond : Nat := 1000000000

/-- A point in time. During a leap second `second` stays at 59 of its minute and `nano` runs on from
`nanosPerSecond`. -/
structure Instant where
  /-- Days since 1 January 1970. -/
  day : Int
  /-- Seconds since midnight. -/
  second : Nat
  /-- Nanoseconds of the second. -/
  nano : Nat
  day_inRange : Calendar.inRange day = true := by decide
  second_lt : second < Instant.secondsPerDay := by decide
  nano_lt : nano < 2 * Instant.nanosPerSecond := by decide
  leap : nano < Instant.nanosPerSecond ∨ second % 60 = 59 := by decide
deriving DecidableEq, Repr

namespace Instant

/-- The instant with these parts, when they are in their ranges. -/
def ofParts? (day : Int) (second nano : Nat) : Option Instant :=
  if h : Calendar.inRange day = true ∧ second < secondsPerDay ∧ nano < 2 * nanosPerSecond ∧
      (nano < nanosPerSecond ∨ second % 60 = 59) then
    some ⟨day, second, nano, h.1, h.2.1, h.2.2.1, h.2.2.2⟩
  else none

/-- The instant of a civil date and time, unless there is no such date or time. -/
def ofCivil? (date : Calendar.Date) (hour minute second : Nat) : Option Instant :=
  if date.isValid && hour < 24 && minute < 60 && second < 60 then
    ofParts? date.toDays (hour * 3600 + minute * 60 + second) 0
  else none

/-- `millis` milliseconds after `t`, or before if negative; `none` when that is off the calendar. -/
def addMillis? (t : Instant) (millis : Int) : Option Instant :=
  let nanos := ((t.day * secondsPerDay + t.second) * nanosPerSecond + t.nano) + millis * 1000000
  let seconds := nanos / nanosPerSecond
  ofParts? (seconds / secondsPerDay) (seconds % secondsPerDay).toNat (nanos % nanosPerSecond).toNat

/-- The instant that a clock `offset` seconds ahead of universal time shows as `t`; `none` when that
is off the calendar. -/
def fromOffset? (t : Instant) (offset : Int) : Option Instant :=
  let seconds := t.day * secondsPerDay + t.second - offset
  ofParts? (seconds / secondsPerDay) (seconds % secondsPerDay).toNat t.nano

/-! ## Writing -/

/-- Years outside four digits carry a sign. -/
def yearText (year : Int) : String :=
  if 0 ≤ year && year ≤ 9999 then Text.padded 4 year.toNat
  else (if year < 0 then "-" else "+") ++ Text.padded 4 year.natAbs

/-- The fraction of a second in none, three, six or nine digits, the fewest that are exact. -/
def fractionText (nano : Nat) : String :=
  if nano == 0 then ""
  else if nano % 1000000 == 0 then "." ++ Text.padded 3 (nano / 1000000)
  else if nano % 1000 == 0 then "." ++ Text.padded 6 (nano / 1000)
  else "." ++ Text.padded 9 nano

/-- The text of `t`. A leap second is written as second 60. -/
def text (t : Instant) : String :=
  let date := Calendar.Date.ofDays t.day
  let leap := nanosPerSecond ≤ t.nano
  let second := t.second % 60 + (if leap then 1 else 0)
  let nano := if leap then t.nano - nanosPerSecond else t.nano
  yearText date.year ++ "-" ++ Text.padded 2 date.month ++ "-" ++ Text.padded 2 date.day ++ "T" ++
    Text.padded 2 (t.second / 3600) ++ ":" ++ Text.padded 2 (t.second / 60 % 60) ++ ":" ++
    Text.padded 2 second ++ fractionText nano ++ "Z"

/-! ## Reading -/

/-- Reads a number of one to `most` digits. -/
def readNumber (most : Nat) (cs : List Char) : Option (Nat × List Char) := do
  let digits := (cs.take most).takeWhile Char.isDigit
  return (← Text.natural? digits, cs.drop digits.length)

/-- Reads a number of one or two digits from `low` to `high`, after any white space. -/
def readField (low high : Nat) (cs : List Char) : Option (Nat × List Char) := do
  let (n, rest) ← readNumber 2 (Text.dropBlanks cs)
  if low ≤ n && n ≤ high then some (n, rest) else none

/-- Reads the separator `c`, after any white space. -/
def readMark (c : Char) (cs : List Char) : Option (List Char) :=
  Text.strip? [c] (Text.dropBlanks cs)

/-- Reads a year: four digits at most, or any number of them after a sign. -/
def readYear (cs : List Char) : Option (Int × List Char) :=
  match Text.dropBlanks cs with
  | '-' :: rest => (readNumber rest.length rest).map fun (n, rest) => (-(n : Int), rest)
  | '+' :: rest => (readNumber rest.length rest).map fun (n, rest) => ((n : Int), rest)
  | rest => (readNumber 4 rest).map fun (n, rest) => ((n : Int), rest)

def readDate (cs : List Char) : Option (Calendar.Date × List Char) := do
  let (year, cs) ← readYear cs
  let (month, cs) ← readField 1 12 (← readMark '-' cs)
  let (day, cs) ← readField 1 31 (← readMark '-' cs)
  return (⟨year, month, day⟩, cs)

/-- Reads a fraction of a second; digits after the ninth have no weight. -/
def readFraction : List Char → Option (Nat × List Char)
  | '.' :: cs => do
    let (n, rest) ← readNumber 9 cs
    let digits := cs.length - rest.length
    return (n * Nat.pow 10 (9 - digits), rest.dropWhile Char.isDigit)
  | cs => some (0, cs)

/-- Reads a time of day as seconds since midnight and nanoseconds. Second 60 is the leap second. -/
def readTime (cs : List Char) : Option ((Nat × Nat) × List Char) := do
  let (hour, cs) ← readField 0 23 cs
  let (minute, cs) ← readField 0 59 (← readMark ':' cs)
  let (second, cs) ← readField 0 60 (← readMark ':' cs)
  let (nano, cs) ← readFraction cs
  let time := hour * 3600 + minute * 60
  if second == 60 then return ((time + 59, nano + nanosPerSecond), cs)
  else return ((time + second, nano), cs)

/-- Reads two digits. -/
def readPair : List Char → Option (Nat × List Char)
  | a :: b :: cs => do return ((← Text.digit? a) * 10 + (← Text.digit? b), cs)
  | _ => none

/-- Reads hours and minutes as seconds, with any colons and white space between them. -/
def readHoursMinutes (cs : List Char) : Option (Int × List Char) := do
  let (hours, cs) ← readPair cs
  let (minutes, cs) ← readPair (cs.dropWhile fun c => c == ':' || Text.isBlank c)
  if minutes < 60 then return (((hours * 3600 + minutes * 60 : Nat) : Int), cs) else none

/-- Reads `Z`, or an offset after a sign. The minus sign may be the typographic one. -/
def readSignedOffset : List Char → Option (Int × List Char)
  | 'Z' :: rest | 'z' :: rest => some (0, rest)
  | '+' :: rest => readHoursMinutes rest
  | '-' :: rest | '−' :: rest => (readHoursMinutes rest).map fun (n, rest) => (-n, rest)
  | _ => none

/-- Reads the offset from universal time in seconds, after any white space: `UTC` or `Z` in either
case, or a signed number of hours and minutes. -/
def readOffset (cs : List Char) : Option (Int × List Char) :=
  let cs := Text.dropBlanks cs
  if (cs.take 3).map Char.toLower == ['u', 't', 'c'] then some (0, cs.drop 3)
  else readSignedOffset cs

/-- Reads an instant: a date, `T` or `t` or a space, a time and an offset of less than a day. -/
def ofText? (s : String) : Option Instant := do
  let (date, cs) ← readDate s.toList
  let cs ← match cs with
    | 'T' :: rest | 't' :: rest | ' ' :: rest => some rest
    | _ => none
  let ((second, nano), cs) ← readTime cs
  let (offset, cs) ← readOffset cs
  if (Text.dropBlanks cs).isEmpty && date.isValid && offset.natAbs < secondsPerDay then
    (ofParts? date.toDays second nano).bind (·.fromOffset? offset)
  else none

end Instant

end QueryTree

import QueryTree.Number.FloatText

/-!
# Durations

A duration is a count of seconds and of nanoseconds. The nanoseconds may exceed a second: two
durations of equal length can be written differently, and only `asNanos` says how long one is.
-/

namespace QueryTree

/-- A span of time, never negative. -/
structure Duration where
  secs : UInt64
  nanos : UInt32
deriving DecidableEq, Repr

namespace Duration

/-- Nanoseconds in a microsecond. -/
def microsecond : Nat := 1000
def millisecond : Nat := 1000000
def second : Nat := 1000000000
def minute : Nat := 60 * second
def hour : Nat := 60 * minute
def day : Nat := 24 * hour
def week : Nat := 7 * day
/-- Nanoseconds in a year of 365 days. -/
def year : Nat := 365 * day
/-- Nanoseconds in a tick, the unit durations are rounded to. -/
def tick : Nat := 100

def zero : Duration := ⟨0, 0⟩

def ofSecs (secs : UInt64) : Duration := ⟨secs, 0⟩

/-- Seconds and nanoseconds with whole seconds carried over, modulo `2 ^ 64` seconds. -/
def normalized (secs : UInt64) (nanos : UInt32) : Duration :=
  ⟨secs + (nanos / 1000000000).toUInt64, nanos % 1000000000⟩

/-- `nanos` nanoseconds, modulo `2 ^ 64` seconds. -/
def ofNanos (nanos : Nat) : Duration :=
  ⟨UInt64.ofNat (nanos / second), UInt32.ofNat (nanos % second)⟩

/-- How long `d` is, in nanoseconds. -/
def asNanos (d : Duration) : Nat :=
  d.secs.toNat * second + d.nanos.toNat

/-- Whether both counts are zero. -/
def isZero (d : Duration) : Bool :=
  d.secs == 0 && d.nanos == 0

/-- `amount` units of `unit` nanoseconds, rounded to whole ticks. There is none if `amount` is
negative, not finite or longer than `2 ^ 64` ticks. -/
def ofUnits? (amount : Float) (unit : Nat) : Option Duration :=
  if !(Number.parts amount).isFinite || amount < 0 then none
  else do
    let ticks ← (Number.parts (amount * Float.ofNat unit / Float.ofNat tick)).nearest?
    if ticks ≤ 18446744073709551616 then some (ofNanos (ticks * tick)) else none

/-- The sum of `a` and `b`, as long as its nanoseconds fit in 128 bits. -/
def checkedAdd (a b : Duration) : Option Duration :=
  let total := a.asNanos + b.asNanos
  if total < Nat.pow 2 128 then some (ofNanos total) else none

/-- Earlier by seconds, then by nanoseconds. -/
def compare (a b : Duration) : Ordering :=
  (Ord.compare a.secs b.secs).then (Ord.compare a.nanos b.nanos)

/-- The units of duration text, largest first. -/
def units : List (Nat × String) :=
  [(year, "y"), (week, "w"), (day, "d"), (hour, "h"), (minute, "m"), (second, "s"),
   (millisecond, "ms"), (microsecond, "us"), (1, "ns")]

/-- Writes `nanos` in the given units, each count as large as possible, zero counts left out. -/
def writeUnits : List (Nat × String) → (nanos : Nat) → String
  | [], _ => ""
  | (size, suffix) :: rest, nanos =>
    if nanos / size == 0 then writeUnits rest nanos
    else Nat.repr (nanos / size) ++ suffix ++ writeUnits rest (nanos % size)

/-- The text of `d`, such as `1d2h3m4s`. -/
def text (d : Duration) : String :=
  if d.asNanos == 0 then "0ns" else writeUnits units d.asNanos

end Duration

end QueryTree

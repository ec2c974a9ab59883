import QueryTree.Lowering.Literal
import QueryTree.Number.FloatText

/-!
# Points and spans of time

Spans whose parts are constants are computed here; others are computed when the query runs.
-/

namespace QueryTree

/-- The units that methods count time in. -/
inductive TimeUnit where
  | days
  | hours
  | minutes
  | seconds
  | milliseconds
  | microseconds
deriving DecidableEq, Repr

namespace TimeUnit

/-- All units, the longest first. -/
def all : List TimeUnit := [.days, .hours, .minutes, .seconds, .milliseconds, .microseconds]

/-- How many nanoseconds a unit has. -/
def nanos : TimeUnit → Nat
  | .days => Duration.day
  | .hours => Duration.hour
  | .minutes => Duration.minute
  | .seconds => Duration.second
  | .milliseconds => Duration.millisecond
  | .microseconds => Duration.microsecond

/-- The function that makes a span of a number of units. -/
def function : TimeUnit → String
  | .days => "duration::from::days"
  | .hours => "duration::from::hours"
  | .minutes => "duration::from::mins"
  | .seconds => "duration::from::secs"
  | .milliseconds => "duration::from::millis"
  | .microseconds => "duration::from::micros"

/-- The name of the unit as part of a method. -/
def name : TimeUnit → String
  | .days => "Days"
  | .hours => "Hours"
  | .minutes => "Minutes"
  | .seconds => "Seconds"
  | .milliseconds => "Milliseconds"
  | .microseconds => "Microseconds"

/-- The unit of `method`, which is `verb` and the name of the unit. -/
def ofMethod? (verb method : String) : Option TimeUnit :=
  all.find? fun u => verb ++ u.name == method

end TimeUnit

namespace Lowering

open Surql (Term)

/-! ## Spans -/

/-- `amount` of `unit` as a span of time: a constant if it can be one. -/
def span (method : String) (unit : TimeUnit) (amount : Operand) : LowerM Term :=
  match amount.expr.constantNumber?.bind fun x => Duration.ofUnits? x unit.nanos with
  | some d => return .duration d
  | none => return .call unit.function [← amount.argument method 0]

/-- `parts` as one constant span, if all of them are constants. -/
def constantSpan? (parts : List (Operand × TimeUnit)) : Option Duration := do
  let amounts ← parts.mapM fun (amount, unit) =>
    amount.expr.constantNumber?.map fun x => x * Float.ofNat unit.nanos
  Duration.ofUnits? (amounts.foldl (· + ·) 0) 1

/-- Whether `amount` is the constant zero. -/
def isNothing (amount : Operand) : Bool :=
  match amount.expr.constantNumber? with
  | some x => x == 0
  | none => false

/-- The sum of the spans of the parts and of `sum`, without parts that are nothing. -/
def spanSum (method : String) : Option Term → List (Operand × TimeUnit) → LowerM (Option Term)
  | sum, [] => return sum
  | sum, (amount, unit) :: parts => do
    if isNothing amount then spanSum method sum parts
    else
      let part ← span method unit amount
      spanSum method (some (match sum with
        | some sum => .binary sum .add part
        | none => part)) parts

/-- A span given in ticks. -/
def ticks (method : String) (amount : Operand) : LowerM Term :=
  return .call "duration::from::nanos"
    [.binary (.int (Int64.ofNat Duration.tick)) .mul (← amount.argument method 0)]

/-- The operation that a method of spans is. -/
def spanOperator? : String → Option Surql.BinaryOp
  | "Add" => some .add
  | "Subtract" => some .sub
  | "Multiply" => some .mul
  | "Divide" => some .div
  | _ => none

/-- A span of `millis` and `micros`. -/
def millisAndMicros (method : String) (millis micros : Operand) : LowerM Term := do
  match constantSpan? [(millis, .milliseconds), (micros, .microseconds)] with
  | some d => return .duration d
  | none =>
    let whole ← span method .milliseconds millis
    if isNothing micros then return whole
    return .binary whole .add (← span method .microseconds micros)

def spanCall (method : String) (receiver : Option Operand) (args : List Operand) : LowerM Term := do
  let qualified := Surface.timeSpan.qualify method
  match receiver, args with
  | none, [millis, micros] =>
    if method == "FromMilliseconds" then millisAndMicros qualified millis micros
    else throw (.methodUnsupported qualified)
  | none, [amount] =>
    if method == "FromTicks" then ticks qualified amount
    else
      match TimeUnit.ofMethod? "From" method with
      | some unit => span qualified unit amount
      | none => throw (.methodUnsupported qualified)
  | some receiver, [other] =>
    match spanOperator? method with
    | some op => return .binary (← receiver.lowered) op (← other.argument qualified 0)
    | none => throw (.methodUnsupported qualified)
  | _, _ => throw (.methodUnsupported qualified)

/-- The units of the arguments of a new span, by their number. -/
def spanUnits? : Nat → Option (List TimeUnit)
  | 3 => some [.hours, .minutes, .seconds]
  | 4 => some (TimeUnit.all.take 4)
  | 5 => some (TimeUnit.all.take 5)
  | 6 => some TimeUnit.all
  | _ => none

/-- A new span: ticks, or hours, minutes and seconds with more units around them. -/
def newSpan (args : List Operand) : LowerM Term := do
  match args with
  | [amount] =>
    match amount.expr.constantNumber?.bind fun x => Duration.ofUnits? x Duration.tick with
    | some d => return .duration d
    | none => ticks (Surface.timeSpan.qualify "FromTicks") amount
  | args =>
    match spanUnits? args.length with
    | none => throw (.constructorUnsupported "TimeSpan")
    | some units =>
      match constantSpan? (args.zip units) with
      | some d => return .duration d
      | none =>
        let sum ← spanSum (Surface.timeSpan.qualify "ctor") none (args.zip units)
        return sum.getD (.duration Duration.zero)

/-- The function that reads a span as a number of units. -/
def spanFunction? : String → Option String
  | "TotalDays" => some "duration::days"
  | "TotalHours" => some "duration::hours"
  | "TotalMinutes" => some "duration::mins"
  | "TotalSeconds" => some "duration::secs"
  | "TotalMilliseconds" => some "duration::millis"
  | "TotalMicroseconds" => some "duration::micros"
  | "TotalNanoseconds" => some "duration::nanos"
  | _ => none

def spanMember (base : Operand) (name : String) : LowerM Term :=
  match spanFunction? name with
  | some function => return .call function [← base.lowered]
  | none => throw (.memberUnsupported (Surface.timeSpan.qualify name))

def spanStatic? : String → Option Term
  | "Zero" => some (.duration Duration.zero)
  | "MaxValue" => some (.constant .durationMax)
  | _ => none

/-! ## Points in time -/

def now : Term := .call "time::now" []

/-- The beginning of the day a point in time falls on. -/
def startOfDay (t : Term) : Term :=
  .call "time::floor" [t, .duration (Duration.ofSecs 86400)]

def instantStatic? : String → Option Term
  | "Now" => some now
  | "UtcNow" => some now
  | "UnixEpoch" => some (.call "time::from::unix" [.int 0])
  | "Today" => some (startOfDay now)
  | "MinValue" => some (.constant .timeMinimum)
  | "MaxValue" => some (.constant .timeMaximum)
  | _ => none

/-- The method that reads a part of a point in time. -/
def instantMethod? : String → Option String
  | "Year" => some "year"
  | "Month" => some "month"
  | "Day" => some "day"
  | "Hour" => some "hour"
  | "Minute" => some "minute"
  | "Second" => some "second"
  | "DayOfYear" => some "yday"
  | "DayOfWeek" => some "wday"
  | _ => none

def instantMember (base : Operand) (name : String) : LowerM Term :=
  if name == "Date" then return startOfDay (← base.lowered)
  else
    match instantMethod? name with
    | some method => return (← base.lowered).step (.method method [])
    | none => throw (.memberUnsupported (Surface.dateTime.qualify name))

/-- A call on a point in time: it is moved by a span, or by a number of units. -/
def instantCall (method : String) (receiver : Option Operand) (args : List Operand) :
    LowerM Term := do
  let qualified := Surface.dateTime.qualify method
  match receiver, args with
  | some receiver, [amount] =>
    match method with
    | "Add" => return .binary (← receiver.lowered) .add (← amount.argument qualified 0)
    | "Subtract" => return .binary (← receiver.lowered) .sub (← amount.argument qualified 0)
    | _ =>
      match TimeUnit.ofMethod? "Add" method with
      | some unit => return .binary (← receiver.lowered) .add (← span qualified unit amount)
      | none => throw (.methodUnsupported qualified)
  | _, _ => throw (.methodUnsupported qualified)

/-- The whole number a constant is, cut to 64 bits. -/
def wholeNumber? (x : Operand) : Option Int :=
  x.expr.constantNumber?.map fun x =>
    (Number.parts x).truncate Int64.minValue.toInt Int64.maxValue.toInt

/-- A number from zero below `2 ^ 32`. -/
def clockField? (n : Int) : Option Nat :=
  if 0 ≤ n && n < 4294967296 then some n.toNat else none

/-- A point in time from the numbers of its date and its time of day. -/
def instantOf (year month day hour minute second millis : Int) : Except Error Instant :=
  let fields? := do
    if year < -2147483648 || 2147483647 < year then none
    else return (← clockField? month, ← clockField? day, ← clockField? hour, ← clockField? minute,
      ← clockField? second)
  match fields? with
  | none => .error (.constructorUnsupported "DateTime")
  | some (m, d, h, mi, s) =>
    match Instant.ofCivil? ⟨year, m, d⟩ h mi s with
    | none => .error (.invalidDate year month day)
    | some t =>
      match t.addMillis? millis with
      | none => .error .dateOverflow
      | some t => .ok t

/-- A new point in time, from constants only. -/
def newInstant (args : List Operand) : LowerM Term := do
  match args.mapM wholeNumber? with
  | some [y, m, d] => return .dateTime (← LowerM.ofExcept (instantOf y m d 0 0 0 0))
  | some [y, m, d, h, mi, s] => return .dateTime (← LowerM.ofExcept (instantOf y m d h mi s 0))
  | some [y, m, d, h, mi, s, ms] => return .dateTime (← LowerM.ofExcept (instantOf y m d h mi s ms))
  | _ => throw (.constructorUnsupported "DateTime")

end Lowering

end QueryTree

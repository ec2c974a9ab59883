import QueryTree.Json.Basic
import QueryTree.Text.Basic

/-!
# Numbers in JSON text

A number without point and exponent that fits in 64 bits is whole. Every other number is read into a
significand of 64 bits, later digits being dropped, which is then scaled by a power of ten in
floating point. The result may differ from the nearest float in its last bit; it never is infinite.
-/

namespace QueryTree.Json

def maxSignificand : Nat := 18446744073709551615

/-- The parts of a number's text. -/
structure NumberText where
  negative : Bool
  whole : List Nat
  /-- The decimals, when there is a point. -/
  fraction : Option (List Nat)
  /-- Sign and digits of the exponent, when there is one. -/
  exponent : Option (Bool × List Nat)

/-- The digits at the start of `cs`, and what follows them. -/
def spanDigits (cs : List Char) : List Nat × List Char :=
  ((cs.takeWhile Char.isDigit).filterMap Text.digit?, cs.dropWhile Char.isDigit)

/-- Splits off an exponent: nothing may follow it. -/
def readExponent : List Char → Option (Option (Bool × List Nat))
  | [] => some none
  | e :: cs =>
    if e == 'e' || e == 'E' then
      let (negative, cs) := match cs with
        | '+' :: rest => (false, rest)
        | '-' :: rest => (true, rest)
        | rest => (false, rest)
      match spanDigits cs with
      | ([], _) => none
      | (digits, []) => some (some (negative, digits))
      | _ => none
    else none

/-- Splits the text of a number: no leading zeros, no bare point, no plus sign. -/
def readNumberText (cs : List Char) : Option NumberText := do
  let (negative, cs) := match cs with
    | '-' :: rest => (true, rest)
    | rest => (false, rest)
  let (whole, cs) := spanDigits cs
  if whole.isEmpty || (whole.length != 1 && whole.head? == some 0) then none
  else match cs with
    | '.' :: cs =>
      let (fraction, cs) := spanDigits cs
      if fraction.isEmpty then none
      else return ⟨negative, whole, some fraction, ← readExponent cs⟩
    | cs => return ⟨negative, whole, none, ← readExponent cs⟩

/-- Reads `digits` before the point into a significand, counting those that are dropped. -/
def wholeSignificand (digits : List Nat) : Nat × Nat :=
  digits.foldl (fun (significand, dropped) d =>
    if dropped == 0 && significand * 10 + d ≤ maxSignificand then (significand * 10 + d, 0)
    else (significand, dropped + 1)) (0, 0)

/-- Goes on reading decimals into `significand`, counting those that are taken. -/
def fractionSignificand : (significand taken : Nat) → List Nat → Nat × Nat
  | significand, taken, [] => (significand, taken)
  | significand, taken, d :: digits =>
    if significand * 10 + d ≤ maxSignificand then
      fractionSignificand (significand * 10 + d) (taken + 1) digits
    else (significand, taken)

/-- The number `10 ^ k`, rounded. -/
def powerOfTen (k : Nat) : Float :=
  Float.ofScientific 1 false k

/-- Divides by `10 ^ 308` that often, or until nothing is left. -/
def shrink : Nat → Float → Float
  | 0, x => x
  | n + 1, x => if x == 0 then x else shrink n (x / powerOfTen 308)

/-- The number `significand · 10 ^ exponent`, unless it is too large. -/
def scale? (significand : Nat) (exponent : Int) : Option Float :=
  let x := Float.ofNat significand
  let k := exponent.natAbs
  if exponent < 0 then
    let blocks := (k - 1) / 308
    some (shrink blocks x / powerOfTen (k - blocks * 308))
  else if k ≤ 308 then
    let scaled := x * powerOfTen k
    if scaled.isInf then none else some scaled
  else if significand == 0 then some x
  else none

/-- The value of an exponent's `digits`, up to a bound beyond which every number is zero or too
large. -/
def exponentValue (digits : List Nat) : Nat :=
  digits.foldl (fun n d => Nat.min (n * 10 + d) 1000000000000) 0

/-- The number that `t` denotes. -/
def NumberText.value? (t : NumberText) : Option Json :=
  let (significand, dropped) := wholeSignificand t.whole
  let whole : Bool := t.fraction.isNone && t.exponent.isNone && dropped == 0
  if whole && !t.negative then some (.int significand)
  else if whole && significand != 0 && significand ≤ 9223372036854775808 then
    some (.int (-(significand : Int)))
  else
    let (significand, taken) := fractionSignificand significand 0 (t.fraction.getD [])
    let exponent : Int := match t.exponent with
      | none => 0
      | some (negative, digits) =>
        if negative then -(exponentValue digits : Int) else exponentValue digits
    (scale? significand ((dropped : Int) - taken + exponent)).map fun x =>
      .float (if t.negative then -x else x)

def number? (cs : List Char) : Option Json :=
  (readNumberText cs).bind NumberText.value?

end QueryTree.Json

import QueryTree.Number.FloatText

/-!
# Decimals of 96 bits

A decimal is a sign, a mantissa of at most 96 bits and a number of decimals of at most 28. Trailing
zeros belong to the value that is written, not to the number it denotes: `1.0` and `1.00` are equal
and print differently.
-/

namespace QueryTree

/-- The first mantissa that no longer fits: `2 ^ 96`. -/
def Decimal.limit : Nat := 79228162514264337593543950336

def Decimal.maxScale : Nat := 28

/-- The number `±mantissa / 10 ^ scale`. -/
structure Decimal where
  negative : Bool
  mantissa : Nat
  scale : Nat
  mantissa_lt : mantissa < Decimal.limit := by decide
  scale_le : scale ≤ Decimal.maxScale := by decide
deriving DecidableEq, Repr

namespace Decimal

def zero : Decimal := { negative := false, mantissa := 0, scale := 0 }

/-- The decimal with these parts, when they fit. -/
def ofSignedParts? (negative : Bool) (mantissa scale : Nat) : Option Decimal :=
  if h : mantissa < limit ∧ scale ≤ maxScale then some ⟨negative, mantissa, scale, h.1, h.2⟩
  else none

/-- `ofSignedParts?`, where zero is never negative. -/
def ofParts? (negative : Bool) (mantissa scale : Nat) : Option Decimal :=
  ofSignedParts? (negative && mantissa != 0) mantissa scale

/-- The opposite number. The sign changes even at zero. -/
def neg (d : Decimal) : Decimal := { d with negative := !d.negative }

/-- The mantissa with its sign. -/
def signedMantissa (d : Decimal) : Int :=
  if d.negative then -(d.mantissa : Int) else d.mantissa

/-- Whether `a` and `b` denote the same number. -/
def sameNumber (a b : Decimal) : Bool :=
  a.signedMantissa * Nat.pow 10 b.scale == b.signedMantissa * Nat.pow 10 a.scale

/-- The text of a decimal: exactly `scale` digits after the point. -/
def text (d : Decimal) : String :=
  let cs := (Text.padded (d.scale + 1) d.mantissa).toList
  let cut := cs.length - d.scale
  Number.signed d.negative <|
    if d.scale == 0 then String.ofList cs
    else String.ofList (cs.take cut) ++ "." ++ String.ofList (cs.drop cut)

def toFloat (d : Decimal) : Float :=
  Number.withSign d.negative (Float.ofScientific d.mantissa true d.scale)

/-- Whether `c` may stand among the digits of a decimal once the first has been read. -/
def isFiller (c : Char) : Bool := c == '_' || (Text.digit? c).isSome

/-- Ends a decimal that has no room for the digit `c`: from five on, it rounds the mantissa up,
giving up one decimal if that no longer fits. An underscore counts as zero. The digits `cs` have no
weight. -/
def round? (negative : Bool) (mantissa scale : Nat) (c : Char) (cs : List Char) :
    Option Decimal := do
  let digit ← if c == '_' then some 0 else Text.digit? c
  if !cs.all isFiller then none
  else if digit < 5 then ofParts? negative mantissa scale
  else if mantissa + 1 < limit then ofParts? negative (mantissa + 1) scale
  else if scale == 0 then none
  else ofParts? negative ((mantissa + 5) / 10) (scale - 1)

/-- Whether `mantissa` was beyond 64-bit arithmetic before its last digit. Only behind such a one an
underscore at the last decimal is passed over. -/
def isWide (mantissa : Nat) : Bool := 1844674407370954906 ≤ mantissa / 10

/-- Ends a decimal behind an underscore at its last decimal: further ones are passed over, and the
digit behind them, if any, rounds. -/
def roundPast? (negative : Bool) (mantissa scale : Nat) (cs : List Char) : Option Decimal :=
  match cs.dropWhile (· == '_') with
  | [] => ofParts? negative mantissa scale
  | c :: cs => round? negative mantissa scale c cs

/-- Reads the digits after the sign: `point` tells whether the point has been read and `started`
whether any digit has. A point may stand first or last, and underscores may follow the first digit.
-/
def readDigits (negative : Bool) :
    (mantissa scale : Nat) → (point started : Bool) → List Char → Option Decimal
  | mantissa, scale, _, started, [] =>
    if started then ofParts? negative mantissa scale else none
  | mantissa, scale, point, started, c :: cs =>
    if point && scale == maxScale then
      if c == '_' && isWide mantissa then roundPast? negative mantissa scale cs
      else round? negative mantissa scale c cs
    else match Text.digit? c with
      | some digit =>
        let next := mantissa * 10 + digit
        if next < limit then
          readDigits negative next (if point then scale + 1 else scale) point true cs
        else if point then round? negative mantissa scale c cs
        else none
      | none =>
        if c == '.' && !point then readDigits negative mantissa scale true started cs
        else if c == '_' && started then readDigits negative mantissa scale point started cs
        else none

/-- Reads a decimal without an exponent. -/
def ofPlain? : List Char → Option Decimal
  | '-' :: cs => readDigits true 0 0 false false cs
  | '+' :: cs => readDigits false 0 0 false false cs
  | cs => readDigits false 0 0 false false cs

/-- Reads the magnitude of an exponent: 32 bits, with an optional plus sign. -/
def exponent? (cs : List Char) : Option Nat := do
  let n ← Text.natural? (if cs.head? == some '+' then cs.tail else cs)
  if n < 4294967296 then some n else none

/-- Moves the point of `d` `places` to the right, or refuses if that does not fit. Moves beyond the
last digit have at most `maxScale` places. -/
def shiftRight? (d : Decimal) (places : Nat) : Option Decimal :=
  if places ≤ d.scale then ofParts? d.negative d.mantissa (d.scale - places)
  else if places ≤ maxScale then
    ofParts? d.negative (d.mantissa * Nat.pow 10 (places - d.scale)) 0
  else none

/-- `mantissa` without its last `n` digits, a half or more of the last place rounded up. -/
def dropDigits (n mantissa : Nat) : Nat := (mantissa + Nat.pow 10 n / 2) / Nat.pow 10 n

/-- Moves the point of `d` `places` to the left, at most `maxScale`. Decimals without room are
rounded away; the sign stays, even of zero. -/
def shiftLeft? (d : Decimal) (places : Nat) : Option Decimal :=
  if places ≤ maxScale then
    let kept := min d.scale (maxScale - places)
    ofSignedParts? d.negative (dropDigits (d.scale - kept) d.mantissa) (kept + places)
  else none

/-- Reads a decimal with an exponent after `e` or `E`. -/
def ofScientific? (cs : List Char) : Option Decimal := do
  let isMark (c : Char) : Bool := c == 'e' || c == 'E'
  let base ← ofPlain? (cs.takeWhile (!isMark ·))
  match cs.dropWhile (!isMark ·) with
  | _ :: '-' :: digits => base.shiftLeft? (← exponent? digits)
  | _ :: digits => base.shiftRight? (← exponent? digits)
  | [] => none

/-- Reads a decimal, plain or with an exponent. -/
def ofText? (s : String) : Option Decimal :=
  (ofPlain? s.toList).or (ofScientific? s.toList)

/-- `n` as a decimal. -/
def ofInt? (n : Int) : Option Decimal :=
  ofParts? (n < 0) n.natAbs 0

end Decimal

end QueryTree

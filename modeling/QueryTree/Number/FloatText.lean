import QueryTree.Number.Shortest

/-!
# Floating-point numbers and their texts

A float is taken apart into sign and magnitude, its digits are chosen by `Dyadic.shortest`, and a
layout writes them out: positionally in query text, with an exponent for very large and very small
numbers in JSON.
-/

namespace QueryTree.Number

/-- What the bits of a floating-point number say. -/
inductive FloatParts where
  | nan
  | infinity (negative : Bool)
  | zero (negative : Bool)
  | finite (negative : Bool) (magnitude : Dyadic)
deriving DecidableEq, Repr

/-- The parts of a number with `width` fraction bits, where `biased` holds the exponent, `top` is
its greatest value and `least` the exponent of the subnormals. -/
def FloatParts.ofFields (width top : Nat) (least : Int) (negative : Bool) (biased fraction : Nat) :
    FloatParts :=
  if biased == top then
    if fraction == 0 then .infinity negative else .nan
  else if biased == 0 then
    if fraction == 0 then .zero negative else .finite negative ⟨fraction, least, false⟩
  else .finite negative
    ⟨fraction + Nat.pow 2 width, least + (biased - 1 : Nat), fraction == 0 && biased != 1⟩

def parts (x : Float) : FloatParts :=
  let bits := x.toBits.toNat
  .ofFields 52 2047 (-1074) (bits / Nat.pow 2 63 == 1) (bits / Nat.pow 2 52 % 2048)
    (bits % Nat.pow 2 52)

def parts32 (x : Float32) : FloatParts :=
  let bits := x.toBits.toNat
  .ofFields 23 255 (-149) (bits / Nat.pow 2 31 == 1) (bits / Nat.pow 2 23 % 256)
    (bits % Nat.pow 2 23)

/-- Whether the number is neither infinite nor undefined. -/
def FloatParts.isFinite : FloatParts → Bool
  | .nan | .infinity _ => false
  | .zero _ | .finite _ _ => true

/-- The sign bit. An undefined number counts as not negative. -/
def FloatParts.isNegative : FloatParts → Bool
  | .nan => false
  | .infinity n | .zero n | .finite n _ => n

/-- The whole part of the magnitude; `0` for numbers that have none. -/
def FloatParts.whole : FloatParts → Nat
  | .finite _ ⟨m, e, _⟩ => if 0 ≤ e then m * Nat.pow 2 e.toNat else m / Nat.pow 2 (-e).toNat
  | _ => 0

/-- The whole number nearest to the magnitude, a half rounded up, unless there is none. -/
def FloatParts.nearest? : FloatParts → Option Nat
  | .nan | .infinity _ => none
  | .zero _ => some 0
  | .finite _ ⟨m, e, _⟩ =>
    if 0 ≤ e then some (m * Nat.pow 2 e.toNat)
    else some ((2 * m + Nat.pow 2 (-e).toNat) / (2 * Nat.pow 2 (-e).toNat))

/-- The whole part with its sign, cut to the numbers from `low` to `high`; `0` when undefined. -/
def FloatParts.truncate (low high : Int) (x : FloatParts) : Int :=
  match x with
  | .infinity negative => if negative then low else high
  | x => max low (min high (if x.isNegative then -(x.whole : Int) else x.whole))

/-- `magnitude` with a sign. -/
def withSign (negative : Bool) (magnitude : Float) : Float :=
  if negative then -magnitude else magnitude

/-- The float nearest to `x`, which is `x` itself when 53 bits are enough. -/
def Dyadic.toFloat (x : Dyadic) : Float :=
  if 0 ≤ x.exponent then Float.ofNat (x.mantissa * Nat.pow 2 x.exponent.toNat)
  else Float.ofNat x.mantissa / Float.ofNat (Nat.pow 2 (-x.exponent).toNat)

/-- The float with these parts. -/
def FloatParts.toFloat : FloatParts → Float
  | .nan => 0 / 0
  | .infinity negative => withSign negative (1 / 0)
  | .zero negative => withSign negative 0
  | .finite negative x => withSign negative x.toFloat

/-- `x` in 64 bits. -/
def widen (x : Float32) : Float :=
  (parts32 x).toFloat

/-- `n` as a float, which is rounded. -/
def ofInt64 (n : Int64) : Float :=
  withSign (n < 0) n.toInt.natAbs.toUInt64.toFloat

def zeros (count : Nat) : String :=
  String.ofList (List.replicate count '0')

/-- `d` without an exponent, and without a point when it is whole. -/
def Scientific.positional (d : Scientific) : String :=
  let digits := Nat.repr d.digits
  if 0 ≤ d.exponent then digits ++ zeros d.exponent.toNat
  else
    let places := (-d.exponent).toNat
    if places < digits.length then
      let cs := digits.toList
      let cut := cs.length - places
      String.ofList (cs.take cut) ++ "." ++ String.ofList (cs.drop cut)
    else "0." ++ zeros (places - digits.length) ++ digits

/-- `d` in JSON: positional with at least one decimal from `10⁻⁵` up to below `10¹⁶`, elsewhere one
digit before the point and a signed exponent. -/
def Scientific.json (d : Scientific) : String :=
  let digits := Nat.repr d.digits
  let point : Int := digits.length + d.exponent
  if -5 < point && point ≤ 16 then
    if 0 ≤ d.exponent then d.positional ++ ".0" else d.positional
  else
    let e := point - 1
    let exponent := (if e < 0 then "e-" else "e+") ++ Nat.repr e.natAbs
    match digits.toList with
    | lead :: next :: rest => String.ofList (lead :: '.' :: next :: rest) ++ exponent
    | _ => digits ++ exponent

/-- A sign in front of a magnitude. -/
def signed (negative : Bool) (magnitude : String) : String :=
  if negative then "-" ++ magnitude else magnitude

/-- The text of a number in a query: the fewest digits, positional, ties upwards. -/
def FloatParts.display : FloatParts → String
  | .nan => "NaN"
  | .infinity negative => signed negative "inf"
  | .zero negative => signed negative "0"
  | .finite negative x => signed negative (x.shortest .up).positional

/-- The text of a finite number in JSON; numbers JSON cannot hold are `null`. -/
def FloatParts.json : FloatParts → String
  | .nan | .infinity _ => "null"
  | .zero negative => signed negative "0.0"
  | .finite negative x => signed negative (x.shortest .even).json

end QueryTree.Number

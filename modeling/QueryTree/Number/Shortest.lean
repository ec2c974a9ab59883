import QueryTree.Text.Basic

/-!
# The fewest digits that identify a binary number

A binary floating-point number stands for every real that rounds to it. Among the decimals in that
interval, `Dyadic.shortest` picks one with the fewest significant digits and, of those, the one
nearest to the number itself. All tests are comparisons of natural numbers.
-/

namespace QueryTree.Number

/-- A positive number `mantissa · 2 ^ exponent` of a binary format. -/
structure Dyadic where
  mantissa : Nat
  exponent : Int
  /-- The neighbour below is half as far away as the one above: a power of two, not the least normal
  one. -/
  narrowBelow : Bool
deriving DecidableEq, Repr

/-- The decimal `digits · 10 ^ exponent`. -/
structure Scientific where
  digits : Nat
  exponent : Int
deriving DecidableEq, Repr

/-- Which of two equally near candidates is taken. -/
inductive Tie where
  | up
  | even
deriving DecidableEq, Repr

/-- How many decimal digits `n` has. -/
def decimalLength (n : Nat) : Nat :=
  (Nat.repr n).length

/-- The decimal without trailing zeros; `fuel` bounds how many are dropped. -/
def Scientific.trim : (fuel : Nat) → Scientific → Scientific
  | 0, d => d
  | fuel + 1, d =>
    if d.digits != 0 && d.digits % 10 == 0 then
      Scientific.trim fuel ⟨d.digits / 10, d.exponent + 1⟩
    else d

namespace Dyadic

/-- Numerator and denominator of a quarter of the spacing, `2 ^ (exponent - 2)`. -/
def quarter (x : Dyadic) : Nat × Nat :=
  if 2 ≤ x.exponent then (Nat.pow 2 (x.exponent - 2).toNat, 1)
  else (1, Nat.pow 2 (2 - x.exponent).toNat)

/-- The exponent of the leading decimal digit: the `p` with `10 ^ p ≤ x < 10 ^ (p + 1)`. -/
def leading (x : Dyadic) : Int :=
  let num := 4 * x.mantissa * x.quarter.1
  let den := x.quarter.2
  if den ≤ num then (decimalLength (num / den) : Int) - 1
  else
    let len := decimalLength (den / num)
    if den ≤ num * Nat.pow 10 (len - 1) then 1 - (len : Int) else -(len : Int)

/-- The decimal with `count` significant digits that is nearest to `x`, if it rounds to `x`. Only
the two neighbours of `x` among the decimals with `count` digits can. -/
def nearest? (tie : Tie) (x : Dyadic) (count : Nat) : Option Scientific :=
  let e : Int := x.leading - count + 1
  let scale := x.quarter.1 * Nat.pow 10 (-e).toNat
  let unit := x.quarter.2 * Nat.pow 10 e.toNat
  let value := 4 * x.mantissa * scale
  let low := (4 * x.mantissa - (if x.narrowBelow then 1 else 2)) * scale
  let high := (4 * x.mantissa + 2) * scale
  let closed := x.mantissa % 2 == 0
  let inside (d : Nat) : Bool :=
    if closed then low ≤ d * unit && d * unit ≤ high else low < d * unit && d * unit < high
  let below := value / unit
  let rest := value % unit
  let upper := unit < 2 * rest || (2 * rest == unit && (tie == .up || below % 2 == 1))
  if rest == 0 then some ⟨below, e⟩
  else if inside below && !(inside (below + 1) && upper) then some ⟨below, e⟩
  else if inside (below + 1) then some ⟨below + 1, e⟩
  else none

/-- The first answer of `nearest?` from `count` digits on. -/
def search (tie : Tie) (x : Dyadic) : (fuel count : Nat) → Scientific
  | 0, count => (x.nearest? tie count).getD ⟨0, 0⟩
  | fuel + 1, count => match x.nearest? tie count with
    | some d => d
    | none => search tie x fuel (count + 1)

/-- The fewest digits that round to `x`. Seventeen always do for 64 bits, nine for 32. -/
def shortest (tie : Tie) (x : Dyadic) : Scientific :=
  (x.search tie 16 1).trim 17

end Dyadic

end QueryTree.Number

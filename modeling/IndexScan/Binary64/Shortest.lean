import IndexScan.Binary64

/-! # Shortest decimal text of a double

The decimals that read back as a finite double fill an interval around it, which reaches
half way to its neighbours and holds its ends exactly when the significand is even. The text
of a double is a decimal of that interval with the fewest digits: the powers of ten are tried
from above, and on the first whose multiples meet the interval the multiple next to the double
is taken, the upper one of two equally near.

The text is positional at every magnitude: no exponent, and no fraction for a whole number.
-/

namespace IndexScan

namespace Binary64

/-- The number `coefficient * 10 ^ exponent`. -/
structure Decimal where
  coefficient : Nat
  exponent : Int
  deriving DecidableEq, Repr

/-- The reals that round to a positive finite double, and the double itself, in quarters of a
unit. -/
structure RoundingInterval where
  low : Nat
  center : Nat
  high : Nat
  closed : Bool

/-- The lower neighbour of a power of two is nearer than the upper one. -/
def roundingInterval (x : Binary64) : RoundingInterval :=
  let m := x.significand
  let below := if m = leadingBit ∧ 1 ≤ x.shift then 1 else 2
  { low := (4 * m - below) <<< x.shift
    center := (4 * m) <<< x.shift
    high := (4 * m + 2) <<< x.shift
    closed := m % 2 == 0 }

/-- Whether `point / scale` is in the interval. -/
def RoundingInterval.holds (i : RoundingInterval) (scale point : Nat) : Bool :=
  if i.closed then decide (i.low * scale ≤ point ∧ point ≤ i.high * scale)
  else decide (i.low * scale < point ∧ point < i.high * scale)

/-- The multiple of `10 ^ exponent` that is in the interval and nearest to its center, among the
two next to the center. -/
def RoundingInterval.onGrid? (i : RoundingInterval) (exponent : Int) : Option Decimal :=
  let scale := Nat.pow 10 (-exponent).toNat
  let step := 4 * unitsPerOne * Nat.pow 10 exponent.toNat
  let lower := i.center * scale / step
  let upper := lower + 1
  let upperNearer := decide (step ≤ 2 * (i.center * scale - lower * step))
  match i.holds scale (lower * step), i.holds scale (upper * step) with
  | true, true => some ⟨if upperNearer then upper else lower, exponent⟩
  | true, false => some ⟨lower, exponent⟩
  | false, true => some ⟨upper, exponent⟩
  | false, false => none

/-- Tries the grids from `exponent` downwards. -/
def RoundingInterval.search (i : RoundingInterval) : Nat → Int → Decimal
  | 0, exponent => ⟨0, exponent⟩
  | n + 1, exponent => (i.onGrid? exponent).getD (i.search n (exponent - 1))

/-- The shortest decimal of a positive finite double. The first grid tried is at least as coarse
as the interval's upper end, and seventeen digits always suffice. -/
def shortest (x : Binary64) : Decimal :=
  let i := x.roundingInterval
  let binaryExponent : Int := (i.high.log2 : Int) - 1076
  i.search 24 (binaryExponent * 1233 / 4096 + 2)

/-- Digits and, where the exponent is negative, a point. -/
def Decimal.positional (d : Decimal) : List Char :=
  let digits := Nat.toDigits 10 d.coefficient
  let places := (-d.exponent).toNat
  if places = 0 then digits ++ List.replicate d.exponent.toNat '0'
  else if places < digits.length then
    digits.take (digits.length - places) ++ '.' :: digits.drop (digits.length - places)
  else '0' :: '.' :: List.replicate (places - digits.length) '0' ++ digits

/-- The text of a double. -/
def chars (x : Binary64) : List Char :=
  if x.isNaN then "NaN".toList
  else
    let magnitude :=
      if x.isInfinite then "inf".toList
      else if x.magnitudeBits = 0 then ['0']
      else x.shortest.positional
    if x.isNegative then '-' :: magnitude else magnitude

end Binary64

end IndexScan

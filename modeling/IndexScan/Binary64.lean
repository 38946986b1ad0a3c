/-! # Double-precision numbers by their bits

A double is kept as its 64 bits, so that everything said about it is integer arithmetic.
Every finite double is a whole number of units, a unit being the smallest positive double
`2^-1074`. The bits below the sign, read as one number and given that sign, are in the order
of the reals; that is `ordinal`, and it decides comparisons of doubles. Between doubles and
64-bit integers there are two casts: one cuts off at the point and stops at the ends of the
range, the other rounds to the nearest double. An integer is compared with a double through
both, in a way in which neither loses anything.
-/

namespace IndexScan

/-- A double-precision number in the binary interchange format. -/
structure Binary64 where
  bits : UInt64
  deriving DecidableEq, Repr, Inhabited

namespace Binary64

/-- The weight of the sign, `2^63`. -/
def signBit : Nat := 0x8000000000000000

/-- The weight of the leading bit of a significand, `2^52`. -/
def leadingBit : Nat := 0x10000000000000

/-- The number of units in 1, `2^1074`. -/
def unitsPerOne : Nat := 1 <<< 1074

/-- The magnitude bits of an infinity; those of a NaN are larger. -/
def infinityBits : Nat := 0x7ff0000000000000

/-- The bits below the sign. -/
def magnitudeBits (x : Binary64) : Nat := x.bits.toNat % signBit

def isNegative (x : Binary64) : Bool := decide (signBit ≤ x.bits.toNat)

def isNaN (x : Binary64) : Bool := decide (infinityBits < x.magnitudeBits)

def isInfinite (x : Binary64) : Bool := x.magnitudeBits == infinityBits

/-- The bits every NaN is identified with. -/
def nan : Binary64 := ⟨0x7ff8000000000000⟩

/-- Sign and magnitude bits as one integer. Both zeros have ordinal 0. -/
def ordinal (x : Binary64) : Int :=
  if x.isNegative then -(x.magnitudeBits : Int) else x.magnitudeBits

def exponentField (x : Binary64) : Nat := x.magnitudeBits / leadingBit

/-- The significand of a finite number as an integer, with its leading bit unless subnormal. -/
def significand (x : Binary64) : Nat :=
  if x.exponentField = 0 then x.magnitudeBits % leadingBit
  else leadingBit + x.magnitudeBits % leadingBit

/-- A finite number is its significand times `2 ^ shift` units, up to sign. -/
def shift (x : Binary64) : Nat := x.exponentField - 1

/-- A finite number in units. -/
def units (x : Binary64) : Int :=
  let magnitude : Int := (x.significand <<< x.shift : Nat)
  if x.isNegative then -magnitude else magnitude

/-- NaN is above everything else and equal to itself; the zeros are equal. -/
def compare (x y : Binary64) : Ordering :=
  match x.isNaN, y.isNaN with
  | true, true => .eq
  | true, false => .gt
  | false, true => .lt
  | false, false => Ord.compare x.ordinal y.ordinal

/-- `x < y`, which is false beside a NaN. -/
def lt (x y : Binary64) : Bool := !x.isNaN && !y.isNaN && decide (x.ordinal < y.ordinal)

/-- `x ≤ y`, which is false beside a NaN. -/
def le (x y : Binary64) : Bool := !x.isNaN && !y.isNaN && decide (x.ordinal ≤ y.ordinal)

def neg (x : Binary64) : Binary64 := ⟨x.bits ^^^ .ofNat signBit⟩

/-- The number cut off at the point, as a 64-bit integer. Beyond either end of the range it is that
end, and 0 for NaN. -/
def toInt64 (x : Binary64) : Int64 :=
  if x.isNaN then 0
  else if x.isInfinite then (if x.isNegative then Int64.minValue else Int64.maxValue)
  else Int64.ofIntClamp (x.units.tdiv (unitsPerOne : Int))

/-- The integer nearest to `m / 2 ^ s`, the even one if two are equally near. -/
def shiftRightNearest (m s : Nat) : Nat :=
  let quotient := m >>> s
  match Ord.compare (2 * (m % (1 <<< s))) (1 <<< s) with
  | .lt => quotient
  | .eq => quotient + quotient % 2
  | .gt => quotient + 1

/-- The magnitude bits of the double nearest to an integer, of the one with the even significand if
two are equally near. A significand that is rounded up to a power of two carries into the exponent
field. -/
def roundBits (m : Nat) : Nat :=
  if m = 0 then 0
  else (1022 + m.log2) * leadingBit + shiftRightNearest (m <<< (52 - m.log2)) (m.log2 - 52)

/-- The integer as a double, rounded to the nearest one. -/
def ofInt64 (n : Int64) : Binary64 :=
  ⟨.ofNat ((if n.toInt < 0 then signBit else 0) + roundBits n.toInt.natAbs)⟩

/-- The double `2^63`, the first above the 64-bit integers. -/
def int64Bound : Binary64 := ⟨0x43e0000000000000⟩

/-- An integer against a double, without rounding the integer. A double within the range is cut off
to an integer, and where that is the one it is compared with, what was cut off decides. -/
def compareInt (n : Int64) (y : Binary64) : Ordering :=
  if y.isNaN || int64Bound.le y then .lt
  else if y.lt int64Bound.neg then .gt
  else
    let whole := y.toInt64
    (Ord.compare n whole).then ((ofInt64 whole).compare y)

/-- The 64-bit integer a double is equal to, if there is one. -/
def toInt64? (x : Binary64) : Option Int64 :=
  if compareInt x.toInt64 x == .eq then some x.toInt64 else none

end Binary64

end IndexScan

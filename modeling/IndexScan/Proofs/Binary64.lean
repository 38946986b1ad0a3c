import Mathlib.Order.Monotone.Basic
import Mathlib.Order.Compare
import IndexScan.Binary64

/-!
# Comparisons of doubles and integers

Every double has a place: a rank, which puts the infinities and NaN around the finite numbers, and
among finite numbers the exact count of units.  Doubles compare as their places do
(`Binary64.compare_eq`), because the bits below the sign grow with the units
(`Binary64.unitsOfBits_strictMono`).

A 64-bit integer is compared with a double through two casts, of which either can lose something.
The first one cuts off at the point, and does not saturate as the double is within the bounds
(`Binary64.toInt_toInt64`).  The second one rounds, but only what is left of a double, and this has
no more digits than a double holds (`Binary64.exists_significand`, `Binary64.units_ofInt64`).  So
the comparison is that of the places (`Binary64.compareInt_eq`).
-/

namespace IndexScan

theorem compare_congr {i j k l : Int} (hLt : i < j ↔ k < l) (hGt : j < i ↔ l < k) :
    compare i j = compare k l := by
  rcases lt_trichotomy i j with h | h | h
  · rw [compare_lt_iff_lt.2 h, compare_lt_iff_lt.2 (hLt.1 h)]
  · have : k = l := by omega
    rw [compare_eq_iff_eq.2 h, compare_eq_iff_eq.2 this]
  · rw [compare_gt_iff_gt.2 h, compare_gt_iff_gt.2 (hGt.1 h)]

namespace Binary64

/-- The number of units in the finite number with these magnitude bits. -/
def unitsOfBits (m : Nat) : Nat :=
  (if m / leadingBit = 0 then m % leadingBit else leadingBit + m % leadingBit) <<<
    (m / leadingBit - 1)

theorem unitsOfBits_zero : unitsOfBits 0 = 0 := by decide

theorem unitsOfBits_lt_succ (m : Nat) : unitsOfBits m < unitsOfBits (m + 1) := by
  simp only [unitsOfBits, Nat.shiftLeft_eq]
  have hPos : 0 < leadingBit := by decide
  by_cases hCarry : (m + 1) % leadingBit = 0
  · have hMod : m % leadingBit = leadingBit - 1 := by
      simp only [leadingBit] at hCarry ⊢
      omega
    have hDiv : (m + 1) / leadingBit = m / leadingBit + 1 := by
      simp only [leadingBit] at hCarry ⊢
      omega
    rw [hCarry, hDiv, hMod, if_neg (Nat.succ_ne_zero _)]
    cases m / leadingBit with
    | zero =>
      rw [if_pos rfl, Nat.pow_zero, Nat.mul_one, Nat.mul_one]
      omega
    | succ e =>
      rw [if_neg (Nat.succ_ne_zero _), Nat.add_sub_cancel, Nat.add_sub_cancel, Nat.pow_succ',
        ← Nat.mul_assoc]
      refine Nat.mul_lt_mul_of_pos_right ?_ (Nat.two_pow_pos e)
      omega
  · have hMod : (m + 1) % leadingBit = m % leadingBit + 1 := by
      simp only [leadingBit] at hCarry ⊢
      omega
    have hDiv : (m + 1) / leadingBit = m / leadingBit := by
      simp only [leadingBit] at hCarry ⊢
      omega
    rw [hMod, hDiv]
    refine Nat.mul_lt_mul_of_pos_right ?_ (Nat.two_pow_pos _)
    split <;> omega

theorem unitsOfBits_strictMono : StrictMono unitsOfBits :=
  strictMono_nat_of_lt_succ unitsOfBits_lt_succ

theorem units_eq (x : Binary64) :
    x.units = if x.isNegative then -(unitsOfBits x.magnitudeBits : Int)
      else unitsOfBits x.magnitudeBits := rfl

/-- Ordinals are in the order of the reals. -/
theorem units_lt_units {x y : Binary64} : x.units < y.units ↔ x.ordinal < y.ordinal := by
  have hLt := unitsOfBits_strictMono.lt_iff_lt (a := x.magnitudeBits) (b := y.magnitudeBits)
  have hGt := unitsOfBits_strictMono.lt_iff_lt (a := y.magnitudeBits) (b := x.magnitudeBits)
  have hx := unitsOfBits_strictMono.lt_iff_lt (a := 0) (b := x.magnitudeBits)
  have hy := unitsOfBits_strictMono.lt_iff_lt (a := 0) (b := y.magnitudeBits)
  -- on either side of zero the magnitudes decide, and only zero itself has no sign
  rw [unitsOfBits_zero] at hx hy
  rw [units_eq, units_eq, ordinal, ordinal]
  split <;> split <;> omega

theorem unitsPerOne_pos : (0 : Int) < unitsPerOne := by
  rw [unitsPerOne, Nat.one_shiftLeft]
  exact Int.natCast_pos.2 (Nat.two_pow_pos 1074)

/-- The place among all numbers, in units where it is finite. -/
def place (x : Binary64) : Nat × Int :=
  if x.isNaN then (3, 0)
  else if x.isInfinite then (if x.isNegative then 0 else 2, 0)
  else (1, x.units)

/-- What kind of number a double is, and its place. -/
inductive Kind (x : Binary64) : Prop
  | nan (hNaN : x.isNaN = true) (hPlace : x.place = (3, 0))
  | infinite (negative : Bool) (hSign : x.isNegative = negative) (hInfinite : x.isInfinite = true)
      (hPlace : x.place = (bif negative then 0 else 2, 0))
  | finite (hNaN : x.isNaN = false) (hInfinite : x.isInfinite = false)
      (hPlace : x.place = (1, x.units))

theorem place_of_isNaN {x : Binary64} (h : x.isNaN = true) : x.place = (3, 0) := by
  rw [place, h]
  rfl

theorem kind (x : Binary64) : x.Kind := by
  cases hNaN : x.isNaN with
  | true => exact .nan hNaN (place_of_isNaN hNaN)
  | false =>
    cases hInfinite : x.isInfinite with
    | true => exact .infinite x.isNegative rfl hInfinite (by simp [place, hNaN, hInfinite])
    | false => exact .finite hNaN hInfinite (by simp [place, hNaN, hInfinite])

theorem isNaN_of_isInfinite {x : Binary64} (h : x.isInfinite = true) : x.isNaN = false := by
  rw [isInfinite, beq_iff_eq] at h
  rw [isNaN, h]
  rfl

theorem ordinal_of_isInfinite {x : Binary64} (h : x.isInfinite = true) :
    x.ordinal = if x.isNegative then -(infinityBits : Int) else infinityBits := by
  rw [isInfinite, beq_iff_eq] at h
  rw [ordinal, h]

/-- A finite number's ordinal is between those of the infinities. -/
theorem ordinal_of_finite {x : Binary64} (hNaN : x.isNaN = false)
    (hInfinite : x.isInfinite = false) :
    -(infinityBits : Int) < x.ordinal ∧ x.ordinal < infinityBits := by
  simp only [isNaN, decide_eq_false_iff_not, isInfinite, beq_eq_false_iff_ne] at hNaN hInfinite
  rw [ordinal]
  split <;> omega

theorem compare_ordinal {x y : Binary64} (hx : x.isNaN = false) (hy : y.isNaN = false) :
    Ord.compare x.ordinal y.ordinal
      = (Ord.compare x.place.1 y.place.1).then (Ord.compare x.place.2 y.place.2) := by
  simp only [place, hx, hy, Bool.false_eq_true, if_false]
  cases hx' : x.isInfinite with
  | true =>
    rw [ordinal_of_isInfinite hx']
    cases hy' : y.isInfinite with
    | true =>
      rw [ordinal_of_isInfinite hy']
      cases x.isNegative <;> cases y.isNegative <;> rfl
    | false =>
      obtain ⟨hLow, hHigh⟩ := ordinal_of_finite hy hy'
      cases x.isNegative with
      | true => exact compare_lt_iff_lt.2 hLow
      | false => exact compare_gt_iff_gt.2 hHigh
  | false =>
    cases hy' : y.isInfinite with
    | true =>
      obtain ⟨hLow, hHigh⟩ := ordinal_of_finite hx hx'
      rw [ordinal_of_isInfinite hy']
      cases y.isNegative with
      | true => exact compare_gt_iff_gt.2 hLow
      | false => exact compare_lt_iff_lt.2 hHigh
    | false => exact compare_congr units_lt_units.symm units_lt_units.symm

theorem compare_eq (x y : Binary64) :
    x.compare y = (Ord.compare x.place.1 y.place.1).then (Ord.compare x.place.2 y.place.2) := by
  cases hx : x.isNaN with
  | true =>
    cases hy : y.isNaN with
    | true => simp [compare, place, hx, hy]
    | false =>
      simp only [compare, place, hx, hy]
      cases y.isInfinite <;> cases y.isNegative <;> rfl
  | false =>
    cases hy : y.isNaN with
    | true =>
      simp only [compare, place, hx, hy]
      cases x.isInfinite <;> cases x.isNegative <;> rfl
    | false =>
      have hOrdinal : x.compare y = Ord.compare x.ordinal y.ordinal := by simp [compare, hx, hy]
      rw [hOrdinal, compare_ordinal hx hy]

/-! ### Rounding -/

theorem shiftRightNearest_of_rest {m s : Nat} (h : m % 1 <<< s = 0) :
    shiftRightNearest m s = m >>> s := by
  have hHalf : Ord.compare (2 * (m % 1 <<< s)) (1 <<< s) = .lt := by
    rw [h, Nat.one_shiftLeft]
    exact compare_lt_iff_lt.2 (Nat.two_pow_pos s)
  rw [shiftRightNearest, hHalf]

theorem shiftRightNearest_le (m s : Nat) : shiftRightNearest m s ≤ m >>> s + 1 := by
  rw [shiftRightNearest]
  split <;> omega

/-- Shifted by as much as its length is short of or beyond 53 binary digits, an integer has that
many. -/
theorem normalized {m : Nat} (hm : m ≠ 0) :
    leadingBit ≤ m <<< (52 - m.log2) >>> (m.log2 - 52) ∧
      m <<< (52 - m.log2) >>> (m.log2 - 52) < 2 * leadingBit := by
  have hLow := Nat.log2_self_le hm
  have hHigh := Nat.lt_log2_self (n := m)
  have hLeading : leadingBit = Nat.pow 2 52 := rfl
  rw [Nat.shiftRight_eq_div_pow, Nat.shiftLeft_eq, Nat.le_div_iff_mul_le (Nat.two_pow_pos _),
    Nat.div_lt_iff_lt_mul (Nat.two_pow_pos _), hLeading]
  generalize m.log2 = e at *
  have hSum : ∀ i, 2 ^ (52 + i) * 2 ^ (e - 52) = 2 ^ (e + i) * 2 ^ (52 - e) := fun i => by
    rw [← Nat.pow_add, ← Nat.pow_add]
    congr 1
    omega
  constructor
  · exact (hSum 0).trans_le (Nat.mul_le_mul_right _ hLow)
  · have := Nat.mul_lt_mul_of_pos_right hHigh (Nat.two_pow_pos (52 - e))
    rw [← hSum 1] at this
    exact this

theorem mul_unitsPerOne (m : Nat) : m * unitsPerOne = m <<< 1074 := by
  rw [unitsPerOne, Nat.one_shiftLeft]
  exact (Nat.shiftLeft_eq m 1074).symm

theorem unitsOfBits_of_significand {e q : Nat} (hLow : leadingBit ≤ q)
    (hHigh : q < 2 * leadingBit) : unitsOfBits (e * leadingBit + q) = q <<< e := by
  have hDiv : (e * leadingBit + q) / leadingBit = e + 1 := by
    simp only [leadingBit] at *
    omega
  have hMod : (e * leadingBit + q) % leadingBit = q - leadingBit := by
    simp only [leadingBit] at *
    omega
  rw [unitsOfBits, hDiv, hMod, if_neg (Nat.succ_ne_zero e), Nat.add_sub_cancel' hLow,
    Nat.add_sub_cancel]

/-- An integer of at most 53 binary digits and zeros after them is not changed by rounding. -/
theorem unitsOfBits_roundBits {q k : Nat} (hq : q < 2 * leadingBit) :
    unitsOfBits (roundBits (q <<< k)) = q <<< k * unitsPerOne := by
  by_cases hZero : q <<< k = 0
  · rw [hZero, roundBits, if_pos rfl, unitsOfBits_zero, Nat.zero_mul]
  · obtain ⟨hLow, hHigh⟩ := normalized hZero
    rw [roundBits, if_neg hZero]
    generalize he : (q <<< k).log2 = e at *
    have hZeros : e - 52 ≤ k := by
      have hLength : (q <<< k).log2 < 53 + k := by
        rw [Nat.log2_lt hZero, Nat.shiftLeft_eq, Nat.pow_add]
        exact Nat.mul_lt_mul_of_pos_right hq (Nat.two_pow_pos k)
      omega
    -- only zeros are shifted out
    have hShift : q <<< k <<< (52 - e) = q <<< (k - (e - 52) + (52 - e)) <<< (e - 52) := by
      rw [← Nat.shiftLeft_add, ← Nat.shiftLeft_add]
      congr 1
      omega
    have hRest : q <<< k <<< (52 - e) % 1 <<< (e - 52) = 0 := by
      rw [hShift, Nat.one_shiftLeft, Nat.shiftLeft_eq _ (e - 52), Nat.mul_mod_left]
    rw [shiftRightNearest_of_rest hRest, unitsOfBits_of_significand hLow hHigh, hShift,
      Nat.shiftLeft_shiftRight, mul_unitsPerOne, ← Nat.shiftLeft_add, ← Nat.shiftLeft_add]
    congr 1
    omega

/-- A 64-bit integer is rounded to a finite number. -/
theorem roundBits_lt {m : Nat} (hm : m ≤ signBit) : roundBits m < infinityBits := by
  by_cases hZero : m = 0
  · rw [hZero]
    decide
  · obtain ⟨-, hHigh⟩ := normalized hZero
    have hRounded := shiftRightNearest_le (m <<< (52 - m.log2)) (m.log2 - 52)
    have hLength : m.log2 < 64 := (Nat.log2_lt hZero).2 (hm.trans_lt (by decide))
    rw [roundBits, if_neg hZero]
    simp only [leadingBit, infinityBits] at *
    omega

/-! ### From an integer to a double -/

theorem natAbs_toInt_le (n : Int64) : n.toInt.natAbs ≤ signBit := by
  have := n.le_toInt
  have := n.toInt_lt
  simp only [signBit]
  omega

theorem toNat_bits_ofInt64 (n : Int64) : (ofInt64 n).bits.toNat
    = (if n.toInt < 0 then signBit else 0) + roundBits n.toInt.natAbs := by
  have hFinite := roundBits_lt (natAbs_toInt_le n)
  refine UInt64.toNat_ofNat_of_lt' ?_
  simp only [signBit, infinityBits, UInt64.size] at *
  split <;> omega

theorem magnitudeBits_ofInt64 (n : Int64) :
    (ofInt64 n).magnitudeBits = roundBits n.toInt.natAbs := by
  have hFinite := roundBits_lt (natAbs_toInt_le n)
  rw [magnitudeBits, toNat_bits_ofInt64]
  simp only [signBit, infinityBits] at *
  split <;> omega

theorem isNegative_ofInt64 (n : Int64) : (ofInt64 n).isNegative = decide (n.toInt < 0) := by
  have hFinite := roundBits_lt (natAbs_toInt_le n)
  rw [isNegative, toNat_bits_ofInt64, decide_eq_decide]
  simp only [signBit, infinityBits] at *
  split <;> omega

theorem place_ofInt64 (n : Int64) : (ofInt64 n).place = (1, (ofInt64 n).units) := by
  have hFinite := roundBits_lt (natAbs_toInt_le n)
  rw [← magnitudeBits_ofInt64] at hFinite
  have hNaN : (ofInt64 n).isNaN = false := decide_eq_false (by omega)
  have hInfinite : (ofInt64 n).isInfinite = false := beq_eq_false_iff_ne.2 (by omega)
  rw [place, hNaN, hInfinite, if_neg Bool.false_ne_true, if_neg Bool.false_ne_true]

/-- An integer of at most 53 binary digits and zeros after them is the double it is cast to. -/
theorem units_ofInt64 {n : Int64} {q k : Nat} (hq : q < 2 * leadingBit)
    (h : n.toInt.natAbs = q <<< k) : (ofInt64 n).units = n.toInt * unitsPerOne := by
  rw [units_eq, magnitudeBits_ofInt64, isNegative_ofInt64, h, unitsOfBits_roundBits hq, ← h]
  by_cases hSign : n.toInt < 0
  · rw [decide_eq_true hSign, if_pos rfl, Int.natCast_mul, ← Int.neg_mul]
    congr 1
    omega
  · rw [decide_eq_false hSign, if_neg Bool.false_ne_true, Int.natCast_mul]
    congr 1
    omega

/-- Of two doubles equally near to an integer the cast gives the one with the even significand. -/
example : ofInt64 9007199254740993 = ⟨0x4340000000000000⟩ ∧
    ofInt64 9007199254740995 = ⟨0x4340000000000002⟩ := by decide +kernel

/-! ### From a double to an integer -/

/-- A number of units is less than one away from where it is cut off. -/
theorem tdiv_bounds (u : Int) : (u.tdiv unitsPerOne - 1) * unitsPerOne < u ∧
    u < (u.tdiv unitsPerOne + 1) * unitsPerOne := by
  have hRest := Int.mul_tdiv_add_tmod u unitsPerOne
  have hLow := Int.lt_tmod_of_pos u unitsPerOne_pos
  have hHigh := Int.tmod_lt_of_pos u unitsPerOne_pos
  rw [Int.sub_mul, Int.add_mul, Int.one_mul, Int.mul_comm (u.tdiv _)]
  omega

/-- A double in the range of 64-bit integers is cut off without saturating. -/
theorem toInt_toInt64 {x : Binary64} (hNaN : x.isNaN = false) (hInfinite : x.isInfinite = false)
    (hLow : -(signBit : Int) * unitsPerOne ≤ x.units) (hHigh : x.units < signBit * unitsPerOne) :
    x.toInt64.toInt = x.units.tdiv unitsPerOne := by
  rw [toInt64, hNaN, hInfinite, if_neg Bool.false_ne_true, if_neg Bool.false_ne_true]
  refine Int64.toInt_ofIntClamp (Int.le_tdiv_of_mul_le unitsPerOne_pos hLow) ?_
  have hLt : x.units.tdiv unitsPerOne < signBit := by
    rcases Int.le_total 0 x.units with h | h
    · rw [Int.tdiv_eq_ediv_of_nonneg h]
      exact Int.ediv_lt_of_lt_mul unitsPerOne_pos hHigh
    · have := Int.tdiv_nonneg (Int.neg_nonneg_of_nonpos h) unitsPerOne_pos.le
      rw [Int.neg_tdiv] at this
      have hPos : (0 : Int) < signBit := by decide
      omega
  exact Int.le_sub_one_of_lt hLt

theorem significand_lt (x : Binary64) : x.significand < 2 * leadingBit := by
  have := Nat.mod_lt x.magnitudeBits (show 0 < leadingBit by decide)
  rw [significand]
  split <;> omega

/-- What is left of a double that is cut off has at most 53 binary digits and zeros after them. -/
theorem exists_significand (x : Binary64) : ∃ q k : Nat,
    q < 2 * leadingBit ∧ (x.units.tdiv unitsPerOne).natAbs = q <<< k := by
  have hUnits : x.units.natAbs = x.significand <<< x.shift := by
    rw [units]
    generalize x.significand <<< x.shift = m
    split <;> omega
  have hCut : (x.units.tdiv unitsPerOne).natAbs = x.significand <<< x.shift / unitsPerOne := by
    rw [Int.natAbs_tdiv, hUnits]
    rfl
  rw [hCut]
  rcases Nat.le_total 1074 x.shift with h | h
  · obtain ⟨k, hk⟩ := Nat.exists_eq_add_of_le' h
    refine ⟨x.significand, k, x.significand_lt, ?_⟩
    rw [hk, Nat.shiftLeft_add, ← mul_unitsPerOne,
      Nat.mul_div_cancel _ (Int.natCast_pos.1 unitsPerOne_pos)]
  · obtain ⟨k, hk⟩ := Nat.exists_eq_add_of_le h
    refine ⟨x.significand <<< x.shift / unitsPerOne, 0, ?_, rfl⟩
    have hLe : x.significand <<< x.shift ≤ unitsPerOne * x.significand := by
      rw [Nat.mul_comm, mul_unitsPerOne, hk, Nat.shiftLeft_add]
      exact Nat.le_shiftLeft
    exact (Nat.div_le_of_le_mul hLe).trans_lt x.significand_lt

/-! ### Integers against doubles -/

theorem compare_toInt (m n : Int64) : Ord.compare m n = Ord.compare m.toInt n.toInt := by
  show compareOfLessAndEq m n = compareOfLessAndEq m.toInt n.toInt
  simp only [compareOfLessAndEq, Int64.lt_iff_toInt_lt, Int64.toInt_inj]

theorem units_int64Bound : int64Bound.units = signBit * unitsPerOne ∧
    int64Bound.neg.units = -signBit * unitsPerOne := by
  decide +kernel

theorem le_int64Bound {y : Binary64} (hNaN : y.isNaN = false) :
    int64Bound.le y = true ↔ int64Bound.ordinal ≤ y.ordinal := by
  rw [le, hNaN]
  exact decide_eq_true_iff

theorem lt_neg_int64Bound {y : Binary64} (hNaN : y.isNaN = false) :
    y.lt int64Bound.neg = true ↔ y.ordinal < int64Bound.neg.ordinal := by
  rw [lt, hNaN]
  exact decide_eq_true_iff

/-- Within the bounds the integer parts are compared first, and where they agree, the double with
what it is cut off to. -/
theorem compare_cut {y : Binary64} (hNaN : y.isNaN = false) (hInfinite : y.isInfinite = false)
    (hLow : -(signBit : Int) * unitsPerOne ≤ y.units) (hHigh : y.units < signBit * unitsPerOne)
    (n : Int64) : (Ord.compare n y.toInt64).then ((ofInt64 y.toInt64).compare y)
      = Ord.compare (n.toInt * unitsPerOne) y.units := by
  have hWhole := toInt_toInt64 hNaN hInfinite hLow hHigh
  obtain ⟨hAfter, hBefore⟩ := tdiv_bounds y.units
  rw [← hWhole] at hAfter hBefore
  rw [compare_toInt]
  rcases lt_trichotomy n.toInt y.toInt64.toInt with h | h | h
  · have hLt : n.toInt * unitsPerOne < y.units :=
      (Int.mul_le_mul_of_nonneg_right (Int.le_sub_one_of_lt h) unitsPerOne_pos.le).trans_lt hAfter
    rw [compare_lt_iff_lt.2 h, compare_lt_iff_lt.2 hLt]
    rfl
  · obtain ⟨q, k, hq, hCut⟩ := exists_significand y
    have hExact : (ofInt64 y.toInt64).place = (1, n.toInt * unitsPerOne) := by
      rw [place_ofInt64, units_ofInt64 hq (hWhole ▸ hCut), h]
    rw [compare_eq_iff_eq.2 h, Ordering.eq_then, compare_eq, hExact, place, hNaN, hInfinite]
    rfl
  · have hGt : y.units < n.toInt * unitsPerOne :=
      hBefore.trans_le (Int.mul_le_mul_of_nonneg_right (Int.add_one_le_of_lt h) unitsPerOne_pos.le)
    rw [compare_gt_iff_gt.2 h, compare_gt_iff_gt.2 hGt]
    rfl

theorem compareInt_of_finite {y : Binary64} (hNaN : y.isNaN = false)
    (hInfinite : y.isInfinite = false) (n : Int64) :
    compareInt n y = Ord.compare (n.toInt * unitsPerOne) y.units := by
  have hAbove : int64Bound.le y = true ↔ signBit * unitsPerOne ≤ y.units := by
    rw [le_int64Bound hNaN, ← not_lt, ← units_lt_units, units_int64Bound.1, not_lt]
  have hBelow : y.lt int64Bound.neg = true ↔ y.units < -(signBit : Int) * unitsPerOne := by
    rw [lt_neg_int64Bound hNaN, ← units_lt_units, units_int64Bound.2]
  rw [compareInt, hNaN, Bool.false_or]
  by_cases hHigh : signBit * unitsPerOne ≤ y.units
  · have hLt : n.toInt * unitsPerOne < y.units :=
      (Int.mul_lt_mul_of_pos_right n.toInt_lt unitsPerOne_pos).trans_le hHigh
    rw [if_pos (hAbove.2 hHigh), compare_lt_iff_lt.2 hLt]
  rw [if_neg (mt hAbove.1 hHigh)]
  by_cases hLow : y.units < -(signBit : Int) * unitsPerOne
  · have hGt : y.units < n.toInt * unitsPerOne :=
      hLow.trans_le (Int.mul_le_mul_of_nonneg_right n.le_toInt unitsPerOne_pos.le)
    rw [if_pos (hBelow.2 hLow), compare_gt_iff_gt.2 hGt]
  rw [if_neg (mt hBelow.1 hLow)]
  exact compare_cut hNaN hInfinite (not_lt.1 hLow) (not_le.1 hHigh) n

/-- The infinities are beyond the bounds. -/
theorem compareInt_of_isInfinite {y : Binary64} (hInfinite : y.isInfinite = true) (n : Int64) :
    compareInt n y = if y.isNegative then .gt else .lt := by
  have hNaN := isNaN_of_isInfinite hInfinite
  have hOrdinal := ordinal_of_isInfinite hInfinite
  rw [compareInt, hNaN, Bool.false_or]
  cases hSign : y.isNegative with
  | true =>
    rw [hSign] at hOrdinal
    have hAbove : ¬int64Bound.le y = true := by
      rw [le_int64Bound hNaN, hOrdinal]
      decide
    have hBelow : y.lt int64Bound.neg = true := by
      rw [lt_neg_int64Bound hNaN, hOrdinal]
      decide
    rw [if_neg hAbove, if_pos hBelow]
    rfl
  | false =>
    rw [hSign] at hOrdinal
    have hAbove : int64Bound.le y = true := by
      rw [le_int64Bound hNaN, hOrdinal]
      decide
    rw [if_pos hAbove]
    rfl

/-- An integer is below a double, or equal to it, as its place is. -/
theorem compareInt_eq (n : Int64) (y : Binary64) : compareInt n y =
    (Ord.compare 1 y.place.1).then (Ord.compare (n.toInt * unitsPerOne) y.place.2) := by
  rcases y.kind with ⟨hNaN, hPlace⟩ | ⟨negative, hSign, hInfinite, hPlace⟩ |
    ⟨hNaN, hInfinite, hPlace⟩
  · rw [compareInt, hNaN, hPlace]
    rfl
  · rw [compareInt_of_isInfinite hInfinite, hSign, hPlace]
    cases negative <;> rfl
  · rw [compareInt_of_finite hNaN hInfinite, hPlace]
    rfl

end Binary64

end IndexScan

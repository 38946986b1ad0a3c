import Mathlib.Data.EReal.Basic
import Mathlib.Data.Int.ConditionallyCompleteOrder
import Mathlib.Data.List.Lex
import Mathlib.Data.Sum.Order
import Mathlib.Order.CompletePartialOrder
import Mathlib.Tactic.IntervalCases
import IndexScan.Proofs.Value.Digest

/-!
# What values stand for

A value stands for an element of a linear order: NULL, a truth value, a number, a text, a point in
time or a byte string, in this order of classes.  The numbers are the extended reals with NaN above
them, and a double stands for the number that its sign, exponent and fraction bits give.
`Value.compare` is the comparison of that order (`Value.compare_eq_cmp`), so nothing is rounded
when numbers of different types are compared, and values are equal when they stand for the same.

* `Binary64.real_eq`: the real number in the bits of a finite double, by its units.
* `Number.compare_eq_cmp`: numbers compare as what they stand for.
* `Value.compares_bytes`: byte strings compare as lists of numbers.
-/

namespace IndexScan

/-- The extended reals with NaN above them. -/
abbrev NumberLine := WithTop EReal

/-- What values stand for: a sum of linear orders, one for each class, of which all elements of one
are below those of the next. -/
abbrev Denotation := Unit ⊕ₗ Bool ⊕ₗ NumberLine ⊕ₗ List ℕ ⊕ₗ ℤ ⊕ₗ List ℕ

namespace Binary64

/-- The eleven exponent bits. -/
def biased (x : Binary64) : ℕ := (x.bits.toBitVec.extractLsb 62 52).toNat

/-- The low 52 bits. -/
def fraction (x : Binary64) : ℕ := (x.bits.toBitVec.extractLsb 51 0).toNat

/-- The factor that the sign bit stands for. -/
noncomputable def signFactor (x : Binary64) : ℝ := if x.bits.toBitVec.msb then -1 else 1

/-- The real number in the bits of a finite double: subnormal if the exponent bits are zero, with
a leading 1 before the fraction otherwise. -/
noncomputable def real (x : Binary64) : ℝ :=
  if x.biased = 0 then x.signFactor * (x.fraction / 2 ^ 52) * (2 : ℝ) ^ (-1022 : ℤ)
  else x.signFactor * (1 + x.fraction / 2 ^ 52) * (2 : ℝ) ^ ((x.biased : ℤ) - 1023)

/-- What a double stands for.  Exponent bits that are all ones make an infinity or a NaN. -/
noncomputable def value (x : Binary64) : NumberLine :=
  if x.biased = 2047 then
    if x.fraction = 0 then ((if x.bits.toBitVec.msb then ⊥ else ⊤ : EReal) : NumberLine) else ⊤
  else ((x.real : EReal) : NumberLine)

/-! ### The fields of a double -/

theorem biased_lt (x : Binary64) : x.biased < 2048 := BitVec.isLt _

theorem fraction_lt (x : Binary64) : x.fraction < leadingBit := BitVec.isLt _

theorem isNegative_eq (x : Binary64) : x.isNegative = x.bits.toBitVec.msb := by
  rw [BitVec.msb_eq_decide]
  rfl

theorem magnitudeBits_eq (x : Binary64) :
    x.magnitudeBits = x.biased * leadingBit + x.fraction := by
  rw [magnitudeBits, biased, fraction, BitVec.extractLsb_toNat, BitVec.extractLsb_toNat,
    UInt64.toNat_toBitVec, Nat.shiftRight_eq_div_pow, Nat.shiftRight_zero, signBit, leadingBit]
  have := x.bits.toNat_lt
  omega

theorem isNaN_eq (x : Binary64) : x.isNaN = decide (x.biased = 2047 ∧ x.fraction ≠ 0) := by
  have := x.biased_lt
  have := x.fraction_lt
  rw [isNaN, x.magnitudeBits_eq, decide_eq_decide]
  simp only [infinityBits, leadingBit] at *
  omega

theorem isInfinite_eq (x : Binary64) :
    x.isInfinite = decide (x.biased = 2047 ∧ x.fraction = 0) := by
  have := x.biased_lt
  have := x.fraction_lt
  rw [isInfinite, x.magnitudeBits_eq, Bool.eq_iff_iff, beq_iff_eq, decide_eq_true_eq]
  simp only [infinityBits, leadingBit] at *
  omega

/-! ### Units as reals -/

theorem cast_one_shiftLeft (n : ℕ) : ((1 <<< n : ℕ) : ℝ) = 2 ^ (n : ℤ) := by
  rw [Nat.one_shiftLeft, Nat.cast_pow, Nat.cast_ofNat, zpow_natCast]

theorem unitsPerOne_cast : (unitsPerOne : ℝ) = 2 ^ (1074 : ℤ) := cast_one_shiftLeft 1074

theorem unitsPerOne_cast_pos : (0 : ℝ) < unitsPerOne := Int.cast_pos.2 unitsPerOne_pos

theorem unitsOfBits_div (e f : ℕ) (hf : f < leadingBit) :
    (unitsOfBits (e * leadingBit + f) / unitsPerOne : ℝ)
      = if e = 0 then f / 2 ^ 52 * (2 : ℝ) ^ (-1022 : ℤ)
        else (1 + f / 2 ^ 52) * (2 : ℝ) ^ ((e : ℤ) - 1023) := by
  have hDiv : (e * leadingBit + f) / leadingBit = e := by
    simp only [leadingBit] at *
    omega
  have hMod : (e * leadingBit + f) % leadingBit = f := by
    simp only [leadingBit] at *
    omega
  have hTwo : (2 : ℝ) ≠ 0 := two_ne_zero
  have hLeading : (leadingBit : ℝ) = 2 ^ (52 : ℤ) := by norm_num [leadingBit]
  rw [unitsOfBits, hDiv, hMod, unitsPerOne_cast, Nat.shiftLeft_eq, ← zpow_ofNat]
  by_cases he : e = 0
  · rw [if_pos he, if_pos he, he, Nat.zero_sub, Nat.pow_zero, Nat.mul_one, div_eq_mul_inv,
      div_eq_mul_inv, mul_assoc, ← zpow_neg, ← zpow_neg, ← zpow_add₀ hTwo]
    rfl
  · have hShift : (2 : ℝ) ^ ((e : ℤ) - 1023) = 2 ^ (52 : ℤ) * 2 ^ (e - 1) / 2 ^ (1074 : ℤ) := by
      rw [← zpow_natCast, ← zpow_add₀ hTwo, ← zpow_sub₀ hTwo]
      congr 1
      omega
    have hPos : (2 : ℝ) ^ (52 : ℤ) ≠ 0 := zpow_ne_zero _ hTwo
    rw [if_neg he, if_neg he, hShift, Nat.cast_mul, Nat.cast_add, hLeading, Nat.cast_pow,
      Nat.cast_ofNat]
    rw [mul_div_assoc', ← mul_assoc, add_mul (1 : ℝ), one_mul, div_mul_cancel₀ _ hPos]

theorem real_eq (x : Binary64) : x.real = (x.units / unitsPerOne : ℝ) := by
  have hUnits := unitsOfBits_div x.biased x.fraction x.fraction_lt
  rw [← x.magnitudeBits_eq] at hUnits
  rw [real, signFactor, units_eq, x.isNegative_eq]
  cases x.bits.toBitVec.msb with
  | true =>
    simp only [if_true]
    push_cast
    rw [neg_div, hUnits]
    split <;> ring
  | false =>
    simp only [Bool.false_eq_true, if_false]
    push_cast
    rw [hUnits]
    split <;> ring

end Binary64

/-! ### The number line by places -/

namespace NumberLine

/-- The places that numbers have: one of four ranks, and units where the rank is that of finite
numbers. -/
def IsPlace (p : ℕ × ℤ) : Prop := p.1 ≤ 3 ∧ (p.1 ≠ 1 → p.2 = 0)

/-- An integer on the number line. -/
noncomputable def ofInt (n : ℤ) : NumberLine := ((n : ℝ) : EReal)

/-- What is at a place. -/
noncomputable def ofPlace (p : ℕ × ℤ) : NumberLine :=
  if p.1 = 0 then (⊥ : EReal)
  else if p.1 = 1 then ((p.2 / Binary64.unitsPerOne : ℝ) : EReal)
  else if p.1 = 2 then (⊤ : EReal)
  else ⊤

theorem strictMono_units :
    StrictMono fun u : ℤ => (((u / Binary64.unitsPerOne : ℝ) : EReal) : NumberLine) := by
  intro u v huv
  have hReal : (u / Binary64.unitsPerOne : ℝ) < v / Binary64.unitsPerOne :=
    div_lt_div_of_pos_right (Int.cast_lt.2 huv) Binary64.unitsPerOne_cast_pos
  exact WithTop.coe_lt_coe.2 (EReal.coe_lt_coe_iff.2 hReal)

theorem ofPlace_lt_of_rank {p q : ℕ × ℤ} (h : p.1 < q.1) (hq : q.1 ≤ 3) :
    ofPlace p < ofPlace q := by
  obtain ⟨i, u⟩ := p
  obtain ⟨j, v⟩ := q
  simp only at h hq
  interval_cases j <;> interval_cases i <;> simp [ofPlace, -WithTop.coe_bot]

theorem ofPlace_finite {p : ℕ × ℤ} (h : p.1 = 1) :
    ofPlace p = ((p.2 / Binary64.unitsPerOne : ℝ) : EReal) := by
  rw [ofPlace, h]
  rfl

/-- Places compare by rank and then by units as what is at them. -/
theorem compare_place {p q : ℕ × ℤ} (hp : IsPlace p) (hq : IsPlace q) :
    (compare p.1 q.1).then (compare p.2 q.2) = cmp (ofPlace p) (ofPlace q) := by
  rcases lt_trichotomy p.1 q.1 with h | h | h
  · rw [compare_lt_iff_lt.2 h, (cmp_eq_lt_iff _ _).2 (ofPlace_lt_of_rank h hq.1)]
    rfl
  · rw [compare_eq_iff_eq.2 h, Ordering.eq_then]
    by_cases hFinite : p.1 = 1
    · rw [ofPlace_finite hFinite, ofPlace_finite (h ▸ hFinite), ← cmp_eq_compare]
      exact (strictMono_units.cmp_map_eq p.2 q.2).symm
    · have hSame : p = q := Prod.ext h ((hp.2 hFinite).trans (hq.2 (h ▸ hFinite)).symm)
      rw [hSame, cmp_self_eq_eq]
      exact compare_eq_iff_eq.2 rfl
  · rw [compare_gt_iff_gt.2 h, (cmp_eq_gt_iff _ _).2 (ofPlace_lt_of_rank h hp.1)]
    rfl

end NumberLine

/-! ### Numbers -/

namespace Number

/-- What a number stands for. -/
noncomputable def value : Number → NumberLine
  | int n => NumberLine.ofInt n.toInt
  | float x => x.value

theorem isPlace_place (n : Number) : NumberLine.IsPlace n.place := by
  cases n with
  | int n => exact ⟨Nat.le_of_ble_eq_true rfl, fun h => absurd rfl h⟩
  | float x =>
    rw [place, Binary64.place]
    cases x.isNaN with
    | true => exact ⟨le_rfl, fun _ => rfl⟩
    | false =>
      cases x.isInfinite with
      | true => cases x.isNegative <;> exact ⟨Nat.le_of_ble_eq_true rfl, fun _ => rfl⟩
      | false => exact ⟨Nat.le_of_ble_eq_true rfl, fun h => absurd rfl h⟩

theorem value_eq (n : Number) : n.value = NumberLine.ofPlace n.place := by
  cases n with
  | int n =>
    have hUnits : ((n.toInt * Binary64.unitsPerOne : ℤ) : ℝ) / Binary64.unitsPerOne = n.toInt := by
      rw [Int.cast_mul, Int.cast_natCast,
        mul_div_cancel_right₀ _ Binary64.unitsPerOne_cast_pos.ne']
    simp only [value, place, NumberLine.ofInt, NumberLine.ofPlace, one_ne_zero, if_true, if_false,
      hUnits]
  | float x =>
    rw [value, place, Binary64.value, Binary64.place, x.isNaN_eq, x.isInfinite_eq, x.isNegative_eq,
      x.real_eq]
    by_cases hTop : x.biased = 2047
    · by_cases hZero : x.fraction = 0
      · cases x.bits.toBitVec.msb <;> simp [hTop, hZero, NumberLine.ofPlace]
      · simp [hTop, hZero, NumberLine.ofPlace]
    · simp [hTop, NumberLine.ofPlace]

/-- Numbers compare as what they stand for. -/
theorem compare_eq_cmp (m n : Number) : m.compare n = cmp m.value n.value := by
  rw [compare_eq, m.value_eq, n.value_eq]
  exact NumberLine.compare_place m.isPlace_place n.isPlace_place

end Number

/-! ### Sums of linear orders -/

section

variable {α β : Type} [LinearOrder α] [LinearOrder β]

theorem cmp_inlₗ (x y : α) : cmp (Sum.inlₗ x : α ⊕ₗ β) (Sum.inlₗ y) = cmp x y :=
  Sum.Lex.inl_strictMono.cmp_map_eq x y

theorem cmp_inrₗ (x y : β) : cmp (Sum.inrₗ x : α ⊕ₗ β) (Sum.inrₗ y) = cmp x y :=
  Sum.Lex.inr_strictMono.cmp_map_eq x y

theorem cmp_inlₗ_inrₗ (x : α) (y : β) : cmp (Sum.inlₗ x : α ⊕ₗ β) (Sum.inrₗ y) = .lt :=
  (cmp_eq_lt_iff _ _).2 (Sum.Lex.inl_lt_inr x y)

theorem cmp_inrₗ_inlₗ (x : β) (y : α) : cmp (Sum.inrₗ x : α ⊕ₗ β) (Sum.inlₗ y) = .gt :=
  (cmp_eq_gt_iff _ _).2 (Sum.Lex.inl_lt_inr y x)

end

/-! ### Values -/

namespace Value

/-- What a value stands for. -/
noncomputable def denote : Value → Denotation
  | null => Sum.inlₗ ()
  | bool b => Sum.inrₗ (Sum.inlₗ b)
  | int32 n => Sum.inrₗ (Sum.inrₗ (Sum.inlₗ (NumberLine.ofInt n.toInt)))
  | int64 n => Sum.inrₗ (Sum.inrₗ (Sum.inlₗ (NumberLine.ofInt n.toInt)))
  | float64 x => Sum.inrₗ (Sum.inrₗ (Sum.inlₗ x.value))
  | text s => Sum.inrₗ (Sum.inrₗ (Sum.inrₗ (Sum.inlₗ ((utf8 s).map UInt8.toNat))))
  | timestamp t => Sum.inrₗ (Sum.inrₗ (Sum.inrₗ (Sum.inrₗ (Sum.inlₗ t.toInt))))
  | bytes data => Sum.inrₗ (Sum.inrₗ (Sum.inrₗ (Sum.inrₗ (Sum.inrₗ (data.map UInt8.toNat)))))

theorem compares_byte (x y : UInt8) : (Ord.compare x y).Compares x.toNat y.toNat := by
  have hCmp : Ord.compare x y = cmp x.toNat y.toNat := by
    rw [cmp_eq_compare]
    show compareOfLessAndEq x y = compareOfLessAndEq x.toNat y.toNat
    simp only [compareOfLessAndEq, UInt8.lt_iff_toNat_lt, UInt8.toNat_inj]
  rw [hCmp]
  exact cmp_compares _ _

/-- Byte strings compare as lists of numbers. -/
theorem compares_bytes (s t : List UInt8) :
    (Ord.compare s t).Compares (s.map UInt8.toNat) (t.map UInt8.toNat) := by
  show (List.compareLex Ord.compare s t).Compares _ _
  induction s generalizing t with
  | nil =>
    cases t with
    | nil => rfl
    | cons y t => exact List.nil_lt_cons _ _
  | cons x s ih =>
    cases t with
    | nil => exact List.nil_lt_cons _ _
    | cons y t =>
      have hHead := compares_byte x y
      rw [List.compareLex_cons_cons, List.map_cons, List.map_cons]
      cases hx : Ord.compare x y with
      | lt =>
        rw [hx] at hHead
        exact List.cons_lt_cons_iff.2 (Or.inl hHead)
      | gt =>
        rw [hx] at hHead
        exact List.cons_lt_cons_iff.2 (Or.inl hHead)
      | eq =>
        rw [hx] at hHead
        have hSame : x.toNat = y.toNat := hHead
        have hMono : StrictMono fun l : List ℕ => y.toNat :: l :=
          fun _ _ h => List.cons_lt_cons_iff.2 (Or.inr ⟨rfl, h⟩)
        rw [Ordering.eq_then, hSame]
        exact hMono.compares.2 (ih t)

theorem denote_of_number? {v : Value} {n : Number} (h : v.number? = some n) :
    v.denote = Sum.inrₗ (Sum.inrₗ (Sum.inlₗ n.value)) := by
  cases v with
  | int32 i =>
    obtain rfl := Option.some.inj h
    rw [denote, Number.value, Int32.toInt_toInt64]
  | int64 i =>
    obtain rfl := Option.some.inj h
    rfl
  | float64 x =>
    obtain rfl := Option.some.inj h
    rfl
  | _ => cases h

theorem compare_of_numbers {a b : Value} {m n : Number} (ha : a.number? = some m)
    (hb : b.number? = some n) : a.compare b = cmp a.denote b.denote := by
  have hNumbers : a.compare b = m.compare n := by simp [compare, ha, hb]
  rw [hNumbers, Number.compare_eq_cmp, denote_of_number? ha, denote_of_number? hb, cmp_inrₗ,
    cmp_inrₗ, cmp_inlₗ]

/-- Values compare as what they stand for. -/
theorem compare_eq_cmp (a b : Value) : a.compare b = cmp a.denote b.denote := by
  cases a <;> cases b
  all_goals first
    | exact compare_of_numbers rfl rfl
    | dsimp only [denote]
  -- the sums are taken apart from the outside in, down to two of one class or of different ones
  all_goals repeat first
    | rw [cmp_inlₗ] | rw [cmp_inrₗ] | rw [cmp_inlₗ_inrₗ] | rw [cmp_inrₗ_inlₗ]
  case bool.bool p q => cases p <;> cases q <;> rfl
  case text.text s t => exact (compares_bytes _ _).cmp_eq.symm
  case bytes.bytes s t => exact (compares_bytes s t).cmp_eq.symm
  case timestamp.timestamp s t => exact (cmp_eq_compare _ _).symm
  all_goals rfl

theorem beq_iff_denote_eq {a b : Value} : a == b ↔ a.denote = b.denote := by
  rw [beq_iff_compare_eq, compare_eq_cmp]
  exact cmp_eq_eq_iff _ _

/-- The order of values is that of what they stand for.  So it is total up to equality, and equality
is an equivalence that the order respects. -/
theorem compare_exact :
    (∀ a b : Value, a.compare b = cmp a.denote b.denote) ∧
    (∀ a b : Value, a.compare b = (b.compare a).swap) ∧
    (∀ a b c : Value, (a.compare b).isLE → (b.compare c).isLE → (a.compare c).isLE) ∧
    (∀ a b : Value, a == b ↔ a.denote = b.denote) ∧
    Equivalence (fun a b : Value => (a == b) = true) ∧
    ∀ a b c d : Value, a == b → c == d → a.compare c = b.compare d := by
  refine ⟨compare_eq_cmp, compare_swap, fun _ _ _ => Std.TransCmp.isLE_trans,
    fun _ _ => beq_iff_denote_eq, ⟨fun _ => BEq.rfl, BEq.symm, BEq.trans⟩, ?_⟩
  intro a b c d hab hcd
  rw [compare_eq_cmp, compare_eq_cmp, beq_iff_denote_eq.1 hab, beq_iff_denote_eq.1 hcd]

/-- The integer after `2 ^ 53` is above the double `2 ^ 53`, to which it would be rounded. -/
example : (int64 9007199254740993).compare (float64 ⟨0x4340000000000000⟩) = .gt := by decide +kernel

end Value

end IndexScan

import Mathlib.Data.List.Forall2
import IndexScan.Proofs.Value.Order
import IndexScan.Value.Digest

/-!
# Equal values have equal digests

A digest is read off the place of a number: a double at the place of a 64-bit integer is cut off to
that integer and gives it (`Binary64.toInt64?_eq_some_iff`), and of the other doubles two at one
place are NaNs or have the same bits (`Binary64.eq_of_place`).  So equal values have one digest, and
values that are not have two (`Value.digest_eq_iff`).  The first write of a value tells how many
follow, so the digest of a list tells its members (`Value.digestAll_eq_iff`).  A hash set of values
is a set up to equality, and so is one of tuples.
-/

namespace IndexScan

namespace Binary64

/-- The bits that NaNs are identified with are those of a NaN. -/
theorem isNaN_told (x : Binary64) : (mk (if x.isNaN then nan.bits else x.bits)).isNaN = x.isNaN := by
  cases h : x.isNaN with
  | true =>
    rw [if_pos rfl]
    decide
  | false => exact h

theorem eq_of_magnitudeBits {x y : Binary64} (hBits : x.magnitudeBits = y.magnitudeBits)
    (hSign : x.isNegative = y.isNegative) : x = y := by
  obtain ⟨x⟩ := x
  obtain ⟨y⟩ := y
  have hSide : signBit ≤ x.toNat ↔ signBit ≤ y.toNat := decide_eq_decide.1 hSign
  have hx := x.toNat_lt
  have hy := y.toNat_lt
  simp only [magnitudeBits, signBit] at hBits hSide
  have hNat : x.toNat = y.toNat := by omega
  rw [UInt64.toNat_inj.1 hNat]

/-- The units of a finite number other than zero determine its bits. -/
theorem eq_of_units {x y : Binary64} (h : x.units = y.units) (hx : x.units ≠ 0) : x = y := by
  rw [units_eq] at hx
  rw [units_eq, units_eq] at h
  cases hNegative : x.isNegative <;> cases hNegative' : y.isNegative <;>
    simp only [hNegative, hNegative', Bool.false_eq_true, if_false, if_true] at h hx
  · refine eq_of_magnitudeBits (unitsOfBits_strictMono.injective ?_) (hNegative.trans hNegative'.symm)
    omega
  · omega
  · omega
  · refine eq_of_magnitudeBits (unitsOfBits_strictMono.injective ?_) (hNegative.trans hNegative'.symm)
    omega

/-- Doubles at one place are NaNs, or zeros, or one double. -/
theorem eq_of_place {x y : Binary64} (h : x.place = y.place) :
    (x.isNaN = true ∧ y.isNaN = true) ∨ (x.place = (1, 0) ∧ y.place = (1, 0)) ∨ x = y := by
  rcases x.kind with ⟨hNaN, hx⟩ | ⟨s, hSign, hInfinite, hx⟩ | ⟨-, -, hx⟩ <;>
    rcases y.kind with ⟨hNaN', hy⟩ | ⟨s', hSign', hInfinite', hy⟩ | ⟨-, -, hy⟩ <;>
    rw [hx, hy] at h
  · exact Or.inl ⟨hNaN, hNaN'⟩
  · cases s' <;> cases h
  · cases h
  · cases s <;> cases h
  · have hSame : s = s' := by cases s <;> cases s' <;> first | rfl | cases h
    simp only [isInfinite, beq_iff_eq] at hInfinite hInfinite'
    refine Or.inr (Or.inr (eq_of_magnitudeBits (hInfinite.trans hInfinite'.symm) ?_))
    rw [hSign, hSign', hSame]
  · cases s <;> cases h
  · cases h
  · cases s' <;> cases h
  · obtain ⟨-, hUnits⟩ := Prod.mk.inj h
    by_cases hZero : x.units = 0
    · exact Or.inr (Or.inl ⟨by rw [hx, hZero], by rw [hy, ← hUnits, hZero]⟩)
    · exact Or.inr (Or.inr (eq_of_units hUnits hZero))

theorem compareInt_eq_eq_iff {n : Int64} {x : Binary64} :
    compareInt n x = .eq ↔ x.place = (1, n.toInt * unitsPerOne) := by
  rw [compareInt_eq, Ordering.then_eq_eq, compare_eq_iff_eq, compare_eq_iff_eq,
    Prod.ext_iff]
  exact and_congr eq_comm eq_comm

theorem compare_eq_eq_iff {x y : Binary64} : x.compare y = .eq ↔ x.place = y.place := by
  rw [compare_eq, Ordering.then_eq_eq, compare_eq_iff_eq, compare_eq_iff_eq, Prod.ext_iff]

/-- Cutting off keeps a double that is equal to a 64-bit integer. -/
theorem toInt64_of_compareInt {n : Int64} {x : Binary64} (h : compareInt n x = .eq) :
    x.toInt64 = n := by
  rw [compareInt_eq_eq_iff] at h
  rcases x.kind with ⟨-, hx⟩ | ⟨s, -, -, hx⟩ | ⟨hNaN, hInfinite, hx⟩ <;> rw [hx] at h
  · cases h
  · cases s <;> cases h
  · obtain ⟨-, hUnits⟩ := Prod.mk.inj h
    rw [toInt64, hNaN, hInfinite, if_neg Bool.false_ne_true, if_neg Bool.false_ne_true, hUnits,
      Int.mul_tdiv_cancel _ unitsPerOne_pos.ne', Int64.ofIntClamp_toInt]

/-- A cut-off double that compares equal is the only integer that does. -/
theorem toInt64?_eq_some_iff {x : Binary64} {n : Int64} :
    x.toInt64? = some n ↔ compareInt n x = .eq := by
  constructor
  · intro h
    rw [toInt64?] at h
    split at h
    · next hEq =>
      obtain rfl := Option.some.inj h
      exact beq_iff_eq.1 hEq
    · cases h
  · intro h
    rw [toInt64?, toInt64_of_compareInt h, h]
    rfl

end Binary64

namespace Value

theorem digestFloat_eq_int_iff {x : Binary64} {n : Int64} :
    digestFloat x = .int n ↔ Binary64.compareInt n x = .eq := by
  rw [← Binary64.toInt64?_eq_some_iff, digestFloat]
  cases x.toInt64? with
  | none => simp
  | some m => simp

/-- A double that is equal to no integer is told by its bits, unless it is a NaN. -/
theorem digestFloat_of_toInt64?_eq_none {x : Binary64} (h : x.toInt64? = none) :
    digestFloat x = .word (if x.isNaN then Binary64.nan.bits else x.bits) := by
  rw [digestFloat, h]

theorem digestFloat_of_isNaN {x : Binary64} (h : x.isNaN = true) :
    digestFloat x = .word Binary64.nan.bits := by
  simp [digestFloat, Binary64.toInt64?, Binary64.compareInt, h]

theorem digestFloat_congr {x y : Binary64} (h : x.compare y = .eq) :
    digestFloat x = digestFloat y := by
  rcases Binary64.eq_of_place (Binary64.compare_eq_eq_iff.1 h) with ⟨hx, hy⟩ | ⟨hx, hy⟩ | rfl
  · rw [digestFloat_of_isNaN hx, digestFloat_of_isNaN hy]
  · have hZero : ∀ z : Binary64, z.place = (1, 0) → digestFloat z = .int 0 := fun z hz =>
      digestFloat_eq_int_iff.2 (Binary64.compareInt_eq_eq_iff.2 (hz.trans (by simp)))
    rw [hZero x hx, hZero y hy]
  · rfl

theorem compare_eq_of_digestFloat {x y : Binary64} (h : digestFloat x = digestFloat y) :
    x.compare y = .eq := by
  rw [Binary64.compare_eq_eq_iff]
  cases hx : x.toInt64? with
  | some n =>
    have hInt : digestFloat x = .int n := by rw [digestFloat, hx]
    rw [Binary64.compareInt_eq_eq_iff.1 (digestFloat_eq_int_iff.1 hInt),
      Binary64.compareInt_eq_eq_iff.1 (digestFloat_eq_int_iff.1 (h.symm.trans hInt))]
  | none =>
    rw [digestFloat_of_toInt64?_eq_none hx] at h
    cases hy : y.toInt64? with
    | some n =>
      rw [digestFloat, hy] at h
      cases h
    | none =>
      rw [digestFloat_of_toInt64?_eq_none hy] at h
      have hBits := HashWrite.word.inj h
      have hNaN : x.isNaN = y.isNaN := by
        rw [← Binary64.isNaN_told x, ← Binary64.isNaN_told y, hBits]
      cases hy : y.isNaN with
      | true => rw [Binary64.place_of_isNaN (hNaN.trans hy), Binary64.place_of_isNaN hy]
      | false =>
        rw [hNaN, hy, if_neg Bool.false_ne_true, if_neg Bool.false_ne_true] at hBits
        exact congrArg (fun bits => (Binary64.mk bits).place) hBits

theorem digestFloat_eq_iff {x y : Binary64} : digestFloat x = digestFloat y ↔ x.compare y = .eq :=
  ⟨compare_eq_of_digestFloat, digestFloat_congr⟩

theorem digest_of_int {v : Value} {n : Int64} (h : v.number? = some (.int n)) :
    v.digest = [.byte 2, .int n] := by
  cases v <;> cases h <;> rfl

theorem digest_of_float {v : Value} {x : Binary64} (h : v.number? = some (.float x)) :
    v.digest = [.byte 2, digestFloat x] := by
  cases v <;> cases h
  rfl

theorem digest_eq_iff_of_numbers {a b : Value} {m n : Number} (ha : a.number? = some m)
    (hb : b.number? = some n) : a.digest = b.digest ↔ m.compare n = .eq := by
  have hNumber : ∀ w w' : HashWrite, [.byte 2, w] = [.byte 2, w'] ↔ w = w' := by simp
  cases m with
  | int m =>
    cases n with
    | int n =>
      rw [digest_of_int ha, digest_of_int hb, hNumber, HashWrite.int.injEq, Number.compare,
        Std.LawfulEqCmp.compare_eq_iff_eq]
    | float y =>
      rw [digest_of_int ha, digest_of_float hb, hNumber, eq_comm]
      exact digestFloat_eq_int_iff
  | float x =>
    cases n with
    | int n =>
      rw [digest_of_float ha, digest_of_int hb, hNumber]
      exact digestFloat_eq_int_iff.trans Ordering.swap_eq_eq.symm
    | float y =>
      rw [digest_of_float ha, digest_of_float hb, hNumber]
      exact digestFloat_eq_iff

theorem isSome_number? (v : Value) : v.number?.isSome = decide (v.classRank = 2) := by
  cases v <;> rfl

/-! ### The class of a value -/

theorem head?_digest (v : Value) : v.digest.head? = some (.byte (.ofNat v.classRank)) := by
  cases v <;> rfl

theorem length_digest (v : Value) :
    v.digest.length = if v.classRank = 0 then 1 else if v.classRank = 5 then 3 else 2 := by
  cases v <;> rfl

theorem classRank_eq_of_digest_append {a b : Value} {rest rest' : List HashWrite}
    (h : a.digest ++ rest = b.digest ++ rest') : a.classRank = b.classRank := by
  have hHead := congrArg List.head? h
  rw [List.head?_append, List.head?_append, head?_digest, head?_digest] at hHead
  have hByte : UInt8.ofNat a.classRank = UInt8.ofNat b.classRank := by simpa using hHead
  have hSmall : ∀ v : Value, (UInt8.ofNat v.classRank).toNat = v.classRank := fun v => by
    cases v <;> rfl
  rw [← hSmall a, hByte, hSmall b]

/-- The first write tells the class of a value, and with it how many writes belong to the value. -/
theorem digest_append_inj {a b : Value} {rest rest' : List HashWrite}
    (h : a.digest ++ rest = b.digest ++ rest') : a.digest = b.digest ∧ rest = rest' := by
  refine List.append_inj h ?_
  rw [length_digest, length_digest, classRank_eq_of_digest_append h]

theorem digest_eq_iff_of_classRank {a b : Value} (hClass : a.classRank = b.classRank) :
    a.digest = b.digest ↔ a.compare b = .eq := by
  have hKind : a.number?.isSome = b.number?.isSome := by
    rw [isSome_number?, isSome_number?, hClass]
  cases hm : a.number? with
  | some m =>
    cases hn : b.number? with
    | some n =>
      have hNumbers : a.compare b = m.compare n := by simp [compare, hm, hn]
      rw [hNumbers]
      exact digest_eq_iff_of_numbers hm hn
    | none =>
      rw [hm, hn] at hKind
      cases hKind
  | none =>
    cases a <;> cases hm <;> cases b <;> cases hClass
    · exact iff_of_true rfl rfl
    · next p q => cases p <;> cases q <;> decide
    · next s t =>
      have hText : (text s).compare (text t) = Ord.compare (utf8 s) (utf8 t) := rfl
      rw [hText, Std.LawfulEqCmp.compare_eq_iff_eq]
      simp [digest]
    · next s t =>
      have hTime : (timestamp s).compare (timestamp t) = Ord.compare s.toInt t.toInt := rfl
      rw [hTime, compare_eq_iff_eq, Int64.toInt_inj]
      simp [digest]
    · next s t =>
      have hBytes : (bytes s).compare (bytes t) = Ord.compare s t := rfl
      rw [hBytes, Std.LawfulEqCmp.compare_eq_iff_eq]
      constructor
      · intro h
        obtain ⟨-, hData⟩ : s.length = t.length ∧ s = t := by simpa [digest] using h
        exact hData
      · rintro rfl
        rfl

/-- Equal values have one digest, and no others have. -/
theorem digest_eq_iff {a b : Value} : a.digest = b.digest ↔ a.compare b = .eq := by
  constructor
  · intro h
    exact (digest_eq_iff_of_classRank (classRank_eq_of_digest_append (congrArg (· ++ []) h))).1 h
  · intro h
    exact (digest_eq_iff_of_classRank (classRank_eq_of_compare_eq h)).2 h

instance : EquivBEq Value where
  rfl := beq_iff_compare_eq.2 Std.ReflCmp.compare_self
  symm h := beq_iff_compare_eq.2 (Std.OrientedCmp.eq_symm (beq_iff_compare_eq.1 h))
  trans hab hbc :=
    beq_iff_compare_eq.2 (Std.TransCmp.eq_trans (beq_iff_compare_eq.1 hab) (beq_iff_compare_eq.1 hbc))

instance : LawfulHashable Value where
  hash_eq a b h := by
    show hash a.digest = hash b.digest
    rw [digest_eq_iff.2 (beq_iff_compare_eq.1 h)]

end Value

/-! ### Lists up to equality of their members -/

section

variable {α : Type} [BEq α]

theorem beq_iff_forall₂ {l m : List α} :
    (l == m) = true ↔ List.Forall₂ (fun a b => (a == b) = true) l m := by
  induction l generalizing m with
  | nil => cases m <;> simp
  | cons a l ih => cases m <;> simp [List.cons_beq_cons, ih]

theorem contains_of_beq {l m : List α} (h : (l == m) = true) {a : α} (ha : a ∈ l) :
    m.contains a = true := by
  rw [beq_iff_forall₂] at h
  induction h with
  | nil => cases ha
  | @cons b c l m hbc _ ih =>
    rw [List.contains_cons, Bool.or_eq_true]
    rcases List.mem_cons.1 ha with rfl | ha
    · exact Or.inl hbc
    · exact Or.inr (ih ha)

instance equivBEqList [EquivBEq α] : EquivBEq (List α) where
  rfl := BEq.rfl
  symm {a b} h := by
    rw [beq_iff_forall₂] at h ⊢
    exact (h.imp fun _ _ => BEq.symm).flip
  trans {a b c} hab hbc := by
    rw [beq_iff_forall₂] at hab hbc ⊢
    induction hab generalizing c with
    | nil => exact hbc
    | cons hxy _ ih =>
      cases hbc with
      | cons hyz hbc => exact .cons (BEq.trans hxy hyz) (ih hbc)

end

/-- Lists with equal members have one digest, and no others have. -/
theorem Value.digestAll_eq_iff {vs ws : List Value} : digestAll vs = digestAll ws ↔ vs == ws := by
  rw [beq_iff_forall₂, digestAll, digestAll, List.cons.injEq, HashWrite.length.injEq]
  constructor
  · rintro ⟨hLength, hWrites⟩
    induction vs generalizing ws with
    | nil =>
      rw [List.eq_nil_of_length_eq_zero hLength.symm]
      exact .nil
    | cons v vs ih =>
      cases ws with
      | nil => cases hLength
      | cons w ws =>
        rw [List.flatMap_cons, List.flatMap_cons] at hWrites
        obtain ⟨hDigest, hRest⟩ := digest_append_inj hWrites
        exact .cons (beq_iff_compare_eq.2 (digest_eq_iff.1 hDigest))
          (ih (Nat.succ.inj hLength) hRest)
  · intro h
    refine ⟨h.length_eq, ?_⟩
    induction h with
    | nil => rfl
    | cons hvw _ ih =>
      rw [List.flatMap_cons, List.flatMap_cons, digest_eq_iff.2 (beq_iff_compare_eq.1 hvw), ih]

instance : LawfulHashable Tuple where
  hash_eq vs ws h := by
    show hash (Value.digestAll vs) = hash (Value.digestAll ws)
    rw [Value.digestAll_eq_iff.2 h]

end IndexScan

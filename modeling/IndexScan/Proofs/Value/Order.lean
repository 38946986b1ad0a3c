import IndexScan.Proofs.Binary64
import IndexScan.Value.Compare

/-!
# The order of values is a total preorder

Every number has a place, and numbers of any types compare as their places do
(`Number.compare_eq`).  So values compare first by class, then by place, then byte by byte, and an
order that is put together like this from total orders is a total preorder.
-/

namespace IndexScan

namespace Number

def place : Number → Nat × Int
  | int n => (1, n.toInt * Binary64.unitsPerOne)
  | float x => x.place

theorem compare_eq (m n : Number) :
    m.compare n = (Ord.compare m.place.1 n.place.1).then (Ord.compare m.place.2 n.place.2) := by
  cases m with
  | int m =>
    cases n with
    | int n =>
      rw [compare, Binary64.compare_toInt]
      exact compare_congr (Int.mul_lt_mul_right Binary64.unitsPerOne_pos).symm
        (Int.mul_lt_mul_right Binary64.unitsPerOne_pos).symm
    | float y => exact Binary64.compareInt_eq m y
  | float x =>
    cases n with
    | int n =>
      rw [compare, Binary64.compareInt_eq, Ordering.swap_then, ← Std.OrientedOrd.eq_swap,
        ← Std.OrientedOrd.eq_swap]
      rfl
    | float y => exact x.compare_eq y

end Number

namespace Value

/-- What numbers, booleans and timestamps are compared by. -/
def magnitude : Value → Nat × Int
  | bool b => (1, b.toNat)
  | timestamp t => (1, t.toInt)
  | v => v.number?.elim (1, 0) Number.place

/-- What texts and byte strings are compared by. -/
def content : Value → List UInt8
  | text s => utf8 s
  | bytes data => data
  | _ => []

theorem compare_of_classRank_ne {a b : Value} (h : a.classRank ≠ b.classRank) :
    a.compare b = Ord.compare a.classRank b.classRank := by
  cases a <;> cases b <;> first | rfl | exact absurd rfl h

theorem classRank_eq_of_compare_eq {a b : Value} (h : a.compare b = .eq) :
    a.classRank = b.classRank := by
  by_contra hClass
  rw [compare_of_classRank_ne hClass] at h
  exact hClass (compare_eq_iff_eq.1 h)

theorem compare_eq_lex : compare = compareLex (compareOn classRank)
    (compareLex (compareOn fun v => v.magnitude.1)
      (compareLex (compareOn fun v => v.magnitude.2) (compareOn content))) := by
  funext a b
  simp only [compareLex, compareOn]
  by_cases hClass : a.classRank = b.classRank
  · rw [compare_eq_iff_eq.2 hClass, Ordering.eq_then]
    cases a <;> cases b <;> simp only [classRank, reduceCtorEq, Nat.reduceEqDiff] at hClass
    case bool.bool p q => cases p <;> cases q <;> rfl
    all_goals simp [compare, number?, magnitude, content, Number.compare_eq, classRank]
  · rw [compare_of_classRank_ne hClass]
    cases hRank : Ord.compare a.classRank b.classRank with
    | eq => exact absurd (compare_eq_iff_eq.1 hRank) hClass
    | lt => rfl
    | gt => rfl

instance : Std.TransCmp compare := by
  rw [compare_eq_lex]
  infer_instance

theorem compare_swap (a b : Value) : a.compare b = (b.compare a).swap := Std.OrientedCmp.eq_swap

theorem beq_iff_compare_eq {a b : Value} : a == b ↔ a.compare b = .eq := by
  show (a.compare b == .eq) = true ↔ a.compare b = .eq
  exact beq_iff_eq

end Value

end IndexScan

import IndexScan.Value.Basic

/-! # The order of values

All values are in one order. It goes by class first: NULL, booleans, numbers, texts, timestamps,
byte strings. Numbers of all three types compare exactly, as reals, with NaN above them; texts
and byte strings compare byte by byte. Values are equal when the order does not tell them
apart, so `7`, `7` in the wider integer type and `7.0` are one value.
-/

namespace IndexScan

/-- A number of any numeric type. -/
inductive Number
  | int (n : Int64)
  | float (x : Binary64)

namespace Number

def compare : Number → Number → Ordering
  | int m, int n => Ord.compare m n
  | int m, float y => Binary64.compareInt m y
  | float x, int n => (Binary64.compareInt n x).swap
  | float x, float y => x.compare y

end Number

namespace Value

def number? : Value → Option Number
  | int32 n => some (.int n.toInt64)
  | int64 n => some (.int n)
  | float64 x => some (.float x)
  | _ => none

/-- The place of a value's class among the classes. -/
def classRank : Value → Nat
  | null => 0
  | bool _ => 1
  | int32 _ | int64 _ | float64 _ => 2
  | text _ => 3
  | timestamp _ => 4
  | bytes _ => 5

def utf8 (s : String) : List UInt8 := s.toByteArray.data.toList

def compare (a b : Value) : Ordering :=
  match a.number?, b.number? with
  | some m, some n => m.compare n
  | _, _ =>
    match a, b with
    | bool p, bool q => Ord.compare p q
    | text s, text t => Ord.compare (utf8 s) (utf8 t)
    | timestamp s, timestamp t => Ord.compare s.toInt t.toInt
    | bytes s, bytes t => Ord.compare s t
    | _, _ => Ord.compare a.classRank b.classRank

instance : Ord Value := ⟨Value.compare⟩

instance : BEq Value := ⟨fun a b => a.compare b == .eq⟩

end Value

end IndexScan

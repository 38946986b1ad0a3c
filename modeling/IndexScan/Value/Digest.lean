import IndexScan.Value.Compare

/-! # Hashing values

The digest of a value is what it gives to a hasher, write by write, and equal values have the same
digest. A number equal to a 64-bit integer gives that integer whatever its type; of the other
doubles, NaNs share one digest and the rest are told apart by their bits.
-/

namespace IndexScan

/-- One write to a hasher. -/
inductive HashWrite
  | byte (b : UInt8)
  | int (n : Int64)
  | word (w : UInt64)
  /-- How many members of a list follow. -/
  | length (n : Nat)
  | text (utf8 : List UInt8)
  | bytes (data : List UInt8)
  deriving DecidableEq, Repr, Hashable

namespace Value

def digestFloat (x : Binary64) : HashWrite :=
  match x.toInt64? with
  | some n => .int n
  | none => .word (if x.isNaN then Binary64.nan.bits else x.bits)

def digest : Value → List HashWrite
  | null => [.byte 0]
  | bool b => [.byte 1, .byte b.toUInt8]
  | int32 n => [.byte 2, .int n.toInt64]
  | int64 n => [.byte 2, .int n]
  | float64 x => [.byte 2, digestFloat x]
  | text s => [.byte 3, .text (utf8 s)]
  | timestamp t => [.byte 4, .int t]
  | bytes data => [.byte 5, .length data.length, .bytes data]

/-- What a list of values gives to a hasher. -/
def digestAll (vs : List Value) : List HashWrite := .length vs.length :: vs.flatMap digest

instance : Hashable Value := ⟨fun v => hash v.digest⟩

instance : Hashable Tuple := ⟨fun vs => hash (digestAll vs)⟩

end Value

end IndexScan

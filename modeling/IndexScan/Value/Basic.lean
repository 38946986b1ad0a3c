import IndexScan.Binary64
import IndexScan.DataType

/-! # Values

A value is the content of one cell. NULL has no type of its own and fits every type.
-/

namespace IndexScan

inductive Value
  | null
  | bool (b : Bool)
  | int32 (n : Int32)
  | int64 (n : Int64)
  | float64 (x : Binary64)
  | text (s : String)
  /-- Milliseconds since the epoch. -/
  | timestamp (millis : Int64)
  | bytes (data : List UInt8)
  deriving Repr, Inhabited

/-- The cells of a row without an identity, in column order. -/
abbrev Tuple := List Value

namespace Value

def type? : Value → Option DataType
  | null => none
  | bool _ => some .bool
  | int32 _ => some .int32
  | int64 _ => some .int64
  | float64 _ => some .float64
  | text _ => some .text
  | timestamp _ => some .timestamp
  | bytes _ => some .bytes

def isNull : Value → Bool
  | null => true
  | _ => false

def toBool? : Value → Option Bool
  | bool b => some b
  | _ => none

def toInt32? : Value → Option Int32
  | int32 n => some n
  | _ => none

/-- An integer of either width. -/
def toInt64? : Value → Option Int64
  | int32 n => some n.toInt64
  | int64 n => some n
  | _ => none

def toFloat64? : Value → Option Binary64
  | float64 x => some x
  | _ => none

def toText? : Value → Option String
  | text s => some s
  | _ => none

def toTimestamp? : Value → Option Int64
  | timestamp t => some t
  | _ => none

def toBytes? : Value → Option (List UInt8)
  | bytes data => some data
  | _ => none

/-- Whether a column of type `type` can hold the value: the value is NULL, of that type, or a
narrower integer. -/
def fits (v : Value) (type : DataType) : Bool :=
  match v.type?, type with
  | none, _ => true
  | some .int32, .int64 => true
  | some own, _ => own == type

end Value

end IndexScan

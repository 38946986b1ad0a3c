/-! # Column types

The seven types a column may be declared with, and the few facts about each that the
schema rules ask for.
-/

namespace IndexScan

inductive DataType
  | bool
  | int32
  | int64
  | float64
  | text
  | timestamp
  | bytes
  deriving DecidableEq, Repr, Inhabited

namespace DataType

/-- The type as it is written in a column declaration. -/
def name : DataType → String
  | bool => "BOOLEAN"
  | int32 => "INTEGER"
  | int64 => "BIGINT"
  | float64 => "DOUBLE PRECISION"
  | text => "CHARACTER VARYING"
  | timestamp => "TIMESTAMP"
  | bytes => "BINARY VARYING"

/-- Whether a column of this type admits NULL when its declaration is silent. -/
def nullableByDefault : DataType → Bool
  | bytes => true
  | _ => false

/-- Whether a column of this type may be part of an index key. -/
def indexable : DataType → Bool
  | bytes => false
  | _ => true

/-- Whether values of this type compare by magnitude with those of other such types. -/
def numeric : DataType → Bool
  | int32 | int64 | float64 => true
  | _ => false

end DataType

end IndexScan

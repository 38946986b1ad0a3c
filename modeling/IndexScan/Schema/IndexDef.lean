/-! # Index definitions

An index orders rows by key columns, each ascending or descending, and produces them in one of
three ways. Where NULL stands in that order is a setting of its own.
-/

namespace IndexScan

/-- The direction in which a key column is sorted. -/
inductive Direction
  | ascending
  | descending
  deriving DecidableEq, Repr, Inhabited

/-- Turns an ascending comparison into one in this direction. -/
def Direction.apply : Direction → Ordering → Ordering
  | ascending, o => o
  | descending, o => o.swap

/-- Where NULL stands among the values of a key column. -/
inductive NullPlacement
  /-- NULL is below every value, so it comes last where the column descends. -/
  | low
  /-- NULL is above every value. -/
  | high
  /-- NULL comes first in either direction. -/
  | first
  /-- NULL comes last in either direction. -/
  | last
  deriving DecidableEq, Repr, Inhabited

/-- How NULL compares with a value in a column sorted in the direction. -/
def NullPlacement.nullVsValue : NullPlacement → Direction → Ordering
  | low, d => d.apply .lt
  | high, d => d.apply .gt
  | first, _ => .lt
  | last, _ => .gt

/-- How an index comes by its rows. -/
inductive IndexType
  | hash
  | btree
  /-- By evaluating the query stored with the table. -/
  | query
  deriving DecidableEq, Repr, Inhabited

structure KeyColumn where
  name : String
  direction : Direction := .ascending
  deriving DecidableEq, Repr

structure IndexDef where
  name : String
  table : String
  columns : List KeyColumn
  unique : Bool := false
  type : IndexType := .btree
  deriving Repr

namespace IndexDef

/-- Definitions are the same when they have one name and one table, whatever their columns. -/
instance : BEq IndexDef := ⟨fun a b => a.name == b.name && a.table == b.table⟩

def qualifiedName (d : IndexDef) : String := d.table ++ "." ++ d.name

end IndexDef

end IndexScan

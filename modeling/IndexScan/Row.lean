import IndexScan.Value.Compare

/-! # Rows and scan bounds

A row has an identity and a value in every column. A bound of a scan has the same shape, but a
cell of it may be absent, which leaves the column open. Comparisons see both through `Cells`,
where a cell is a value or nothing.
-/

namespace IndexScan

abbrev RowId := UInt64

/-- What is read from rows and bounds alike. -/
class Cells (ρ : Type) where
  width : ρ → Nat
  /-- The value in a column; nothing for an absent cell or a column beyond the width. -/
  cell? : ρ → Nat → Option Value

structure Row where
  id : RowId
  values : Tuple
  deriving Repr, BEq, Inhabited

namespace Row

/-- The identity of rows that are not stored anywhere. -/
def dummyId : RowId := 0xffffffffffffffff

/-- A row that is not stored anywhere. -/
def dummy (values : Tuple) : Row := ⟨dummyId, values⟩

/-- The row of `width` NULLs that query results are read into. -/
def template (width : Nat) : Row := dummy (List.replicate width .null)

/-- A row with the next identity of the supply. -/
def create (values : Tuple) : StateM RowId Row := fun next => (⟨next, values⟩, next + 1)

def isDummy (r : Row) : Bool := r.id == dummyId

def width (r : Row) : Nat := r.values.length

instance : Cells Row := ⟨Row.width, fun r i => r.values[i]?⟩

/-- Replaces a cell, or gives nothing for a column the row does not have: rows never grow. -/
def set? (r : Row) (i : Nat) (v : Value) : Option Row :=
  if i < r.width then some { r with values := r.values.set i v } else none

/-- A tuple cut or filled up with NULLs to a width. -/
def fitted (width : Nat) (t : Tuple) : Tuple :=
  t.take width ++ List.replicate (width - t.length) .null

/-- The row with its cells taken from a tuple of any width. -/
def fill (r : Row) (t : Tuple) : Row := { r with values := fitted r.width t }

end Row

/-- A bound of a scan. -/
structure Bound where
  cells : List (Option Value)
  deriving Repr, BEq, Inhabited

namespace Bound

/-- The bound of a width that constrains nothing. -/
def absent (width : Nat) : Bound := ⟨List.replicate width none⟩

/-- The bound that holds values in its leading columns. Values beyond the width are dropped. -/
def leading (width : Nat) (values : List Value) : Bound :=
  ⟨(values.take width).map some ++ List.replicate (width - values.length) none⟩

/-- The bound that constrains every column to the value it has in a row. -/
def ofRow (r : Row) : Bound := ⟨r.values.map some⟩

def width (b : Bound) : Nat := b.cells.length

instance : Cells Bound := ⟨Bound.width, fun b i => (b.cells[i]?).join⟩

/-- Constrains a column, or gives nothing for a column the bound does not have. -/
def set? (b : Bound) (i : Nat) (v : Value) : Option Bound :=
  if i < b.width then some ⟨b.cells.set i (some v)⟩ else none

/-- Leaves a column open. -/
def clear (b : Bound) (i : Nat) : Bound := ⟨b.cells.set i none⟩

end Bound

end IndexScan

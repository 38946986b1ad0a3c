import IndexScan.Error

/-! # Columns

A column has a name, a type and a place in the row, and admits NULL or not.
-/

namespace IndexScan

structure Column where
  name : String
  type : DataType
  nullable : Bool := type.nullableByDefault
  /-- The place of the column in the rows of its table. -/
  position : Nat := 0
  deriving Repr, Inhabited

namespace Column

/-- Columns are the same when they have one name and one type, wherever they stand. -/
instance : BEq Column := ⟨fun a b => a.name == b.name && a.type == b.type⟩

def indexable (c : Column) : Bool := c.type.indexable

/-- Whether the column may hold the value. -/
def validate (c : Column) (v : Value) : Except Error Unit :=
  match v.type? with
  | none => if c.nullable then .ok () else .error (.nullConstraint c.name)
  | some got => if v.fits c.type then .ok () else .error (.typeMismatch c.type got)

end Column

end IndexScan

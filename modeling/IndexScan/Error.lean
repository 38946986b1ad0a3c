import IndexScan.Value.Compare
import IndexScan.Value.Text

/-! # Failures

Every operation that can fail says why with one of these causes. A failure ends the operation
that met it; nothing is tried again.
-/

namespace IndexScan

inductive Error
  | typeMismatch (expected got : DataType)
  | nullConstraint (column : String)
  | invalidSchema (message : String)
  | columnNotFound (table column : String)
  | tableNotFound (name : String)
  | indexNotFound (table index : String)
  | viewNotFound (name : String)
  | duplicateKey (index : String) (key : Value)
  /-- The index or cursor does not offer the operation. -/
  | unsupported (message : String)
  /-- A stored query does not compile. -/
  | compilation (object message : String)
  | accessDenied (message : String)
  /-- The statement was cancelled while rows were being produced. -/
  | interrupted (statement : String)
  /-- A query failed while it was being evaluated. -/
  | evaluation (message : String)
  /-- An invariant of the engine does not hold. -/
  | internal (message : String)
  deriving Repr

namespace Error

def message : Error → String
  | typeMismatch expected got => s!"type mismatch: expected {expected.name}, got {got.name}"
  | nullConstraint column => s!"NULL not allowed for column {column}"
  | invalidSchema message => s!"invalid schema: {message}"
  | columnNotFound table column => s!"column {column} not found in table {table}"
  | tableNotFound name => s!"table not found: {name}"
  | indexNotFound table index => s!"index {index} not found in table {table}"
  | viewNotFound name => s!"view not found: {name}"
  | duplicateKey index key => s!"duplicate key {key.render} in unique index {index}"
  | unsupported message => s!"unsupported operation: {message}"
  | compilation object message => s!"compilation of {object} failed: {message}"
  | accessDenied message => s!"access denied: {message}"
  | interrupted statement => s!"statement interrupted: {statement}"
  | evaluation message => s!"evaluation failed: {message}"
  | internal message => s!"internal error: {message}"

/-- Whether the failure is a defect of the engine rather than of its use. -/
def isInternal : Error → Bool
  | internal _ => true
  | _ => false

end Error

end IndexScan

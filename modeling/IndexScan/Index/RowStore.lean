import IndexScan.RowOrder
import Std.Data.HashMap

/-! # Stored rows

The rows behind an index that stores them, by identity.
-/

namespace IndexScan

structure RowStore where
  index : String
  table : Table
  rows : Std.HashMap RowId Row := ∅

namespace RowStore

/-- Whether a row may be stored: it fits the table, and its identity is not taken. -/
def check (s : RowStore) (r : Row) : Except Error Unit := do
  s.table.validate r
  if s.rows.contains r.id then
    throw (.internal s!"row {r.id} already stored in index {s.index}")

def insert (s : RowStore) (r : Row) : RowStore := { s with rows := s.rows.insert r.id r }

def erase (s : RowStore) (id : RowId) : RowStore := { s with rows := s.rows.erase id }

def row? (s : RowStore) (id : RowId) : Option Row := s.rows[id]?

/-- The row that an index refers to. -/
def require (s : RowStore) (id : RowId) : Except Error Row :=
  match s.row? id with
  | some r => .ok r
  | none => .error (.internal s!"index {s.index} references missing row {id}")

def size (s : RowStore) : Nat := s.rows.size

end RowStore

end IndexScan

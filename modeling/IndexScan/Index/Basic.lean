import IndexScan.Evaluation.Trace
import IndexScan.RowOrder
import IndexScan.Stats

/-! # Indexes and cursors

An index is a way to the rows of a table. A scan of it opens a cursor on the rows between two
bounds, and the cursor moves from row to row. Both change as they are used: an index counts, and
one over a query may give the cursor tuples that it keeps itself. So a move takes the index with
the cursor and gives both back.
-/

namespace IndexScan

inductive IndexKind
  /-- Stored rows in the order of their keys. -/
  | btree
  /-- Stored rows by equality of their keys. -/
  | hash
  /-- Rows computed anew for every scan. -/
  | query
  /-- Rows of the working table of a recursive query. -/
  | recursive
  deriving DecidableEq, Repr

def IndexKind.queryBacked : IndexKind → Bool
  | btree | hash => false
  | query | recursive => true

/-- Where a cursor is in its scan. -/
inductive Place (α : Type)
  | beforeFirst
  | on (current : α)
  | exhausted

namespace Place

variable {α β : Type}

def map (f : α → β) : Place α → Place β
  | beforeFirst => beforeFirst
  | on a => on (f a)
  | exhausted => exhausted

def current? : Place α → Option α
  | on a => some a
  | _ => none

def isExhausted : Place α → Bool
  | exhausted => true
  | _ => false

end Place

/-- What all kinds of index offer. -/
class Index (ι : Type) where
  Cursor : Type
  name : ι → String
  table : ι → Table
  kind : ι → IndexKind
  order : ι → RowOrder
  /-- Whether scans give the rows in the index's order. -/
  isOrdered : ι → Bool
  stats : ι → Stats
  /-- Opens a cursor on the rows that are not below the lower and not above the upper bound. -/
  scan : ι → Option Bound → Option Bound → Traced (Except Error Cursor × ι)
  /-- Moves to the next row, and tells whether there is one. -/
  next : ι → Cursor → Traced (Except Error Bool × Cursor × ι)
  /-- Moves to the row before, and tells whether there is one. -/
  previous : ι → Cursor → Traced (Except Error Bool × Cursor × ι)
  place : Cursor → Place Row
  /-- An upper limit of the number of rows that a cursor has yet to give. -/
  remaining : ι → Cursor → Nat

namespace Index

variable {ι : Type} [Index ι]

/-- Reads at most `limit` rows on, and stops at the end and at a failure. -/
def readOn : Nat → ι → Cursor ι → Traced (Except Error (List Row) × Cursor ι × ι)
  | 0, ix, c => pure (.ok [], c, ix)
  | limit + 1, ix, c => do
    match ← next ix c with
    | (.error e, c, ix) => return (.error e, c, ix)
    | (.ok false, c, ix) => return (.ok [], c, ix)
    | (.ok true, c, ix) =>
      let (rest, last, ix) ← readOn limit ix c
      return (rest.map ((place c).current?.toList ++ ·), last, ix)

/-- All rows a cursor has yet to give. -/
def readAll (ix : ι) (c : Cursor ι) : Traced (Except Error (List Row) × Cursor ι × ι) :=
  readOn (remaining ix c + 1) ix c

/-- All rows between two bounds. -/
def rows (ix : ι) (lower upper : Option Bound) : Traced (Except Error (List Row) × ι) := do
  match ← scan ix lower upper with
  | (.error e, ix) => return (.error e, ix)
  | (.ok c, ix) =>
    let (rows, _, ix) ← readAll ix c
    return (rows, ix)

end Index

end IndexScan

import IndexScan.Schema.Table

/-! # The order of rows in an index

An index has one order, with which it places keys and cuts ranges. Cells are compared key
column by key column. Where one of the rows compared has no value, the comparison stops and
calls them equal, so that a bound with absent cells constrains only the columns before them.
-/

namespace IndexScan

/-- The cells of a row in the key columns, in the order of the key. -/
abbrev Key := List Value

structure RowOrder where
  columns : List (Nat × Direction)
  nulls : NullPlacement
  deriving Repr

namespace RowOrder

/-- The order of an index of a table. -/
def ofIndex (t : Table) (d : IndexDef) (nulls : NullPlacement) : Except Error RowOrder :=
  (t.keyColumns d).map fun columns => { columns, nulls }

end RowOrder

/-- Two cells of a key column. -/
def NullPlacement.compareCells (nulls : NullPlacement) (d : Direction) (a b : Value) : Ordering :=
  match a.isNull, b.isNull with
  | true, true => .eq
  | true, false => nulls.nullVsValue d
  | false, true => (nulls.nullVsValue d).swap
  | false, false => d.apply (a.compare b)

namespace RowOrder

def compareCellsFrom (nulls : NullPlacement) (a b : Nat → Option Value) :
    List (Nat × Direction) → Ordering
  | [] => .eq
  | (i, d) :: rest =>
    match a i, b i with
    | some x, some y => (nulls.compareCells d x y).then (compareCellsFrom nulls a b rest)
    | _, _ => .eq

variable {ρ σ : Type} [Cells ρ] [Cells σ]

def compareRows (o : RowOrder) (a : ρ) (b : σ) : Ordering :=
  compareCellsFrom o.nulls (Cells.cell? a) (Cells.cell? b) o.columns

def compareKeyFrom (nulls : NullPlacement) (b : Nat → Option Value) :
    List (Nat × Direction) → Key → Ordering
  | (i, d) :: rest, x :: key =>
    match b i with
    | some y => (nulls.compareCells d x y).then (compareKeyFrom nulls b rest key)
    | none => .eq
  | _, _ => .eq

/-- A key against a row or bound. -/
def compareKeyWith (o : RowOrder) (key : Key) (b : σ) : Ordering :=
  compareKeyFrom o.nulls (Cells.cell? b) o.columns key

def compareKeysFrom (nulls : NullPlacement) : List (Nat × Direction) → Key → Key → Ordering
  | [], _, _ => .eq
  | _ :: _, [], [] => .eq
  | _ :: _, [], _ :: _ => .lt
  | _ :: _, _ :: _, [] => .gt
  | (_, d) :: rest, x :: a, y :: b =>
    (nulls.compareCells d x y).then (compareKeysFrom nulls rest a b)

/-- Two keys. Of keys with too few cells, the shorter one is below. -/
def compareKeys (o : RowOrder) (a b : Key) : Ordering := compareKeysFrom o.nulls o.columns a b

/-- The key of a row. An absent cell counts as NULL. -/
def keyOf (o : RowOrder) (a : ρ) : Key :=
  o.columns.map fun (i, _) => (Cells.cell? a i).getD .null

/-- Whether a value is present in every key column. -/
def covers (o : RowOrder) (a : ρ) : Bool :=
  o.columns.all fun (i, _) => (Cells.cell? a i).isSome

/-- Whether a row is not below the lower and not above the upper bound. -/
def inRange (o : RowOrder) (lower upper : Option Bound) (a : ρ) : Bool :=
  lower.all (fun b => o.compareRows a b != .lt) && upper.all (fun b => o.compareRows a b != .gt)

end RowOrder

/-- A key as one value, as it appears in messages: its cell, or the text of all its cells. -/
def keyValue : Key → Value
  | [v] => v
  | key => .text (String.ofList (Value.tupleChars key))

end IndexScan

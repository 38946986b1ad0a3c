import IndexScan.Index.Computed

/-! # Programs that scan

The step of a recursive query reads the working table through its index and can do nothing else
to it. A scan program is such a computation: it opens cursors, which are numbered in the order
of opening, and reads on with any of them until it has enough rows, until the end or until a
failure. Cursors may be left behind in the middle of the scan.
-/

namespace IndexScan

inductive ScanProgram (α : Type)
  | done (a : α)
  /-- Opens a cursor and goes on with its number. -/
  | openScan (lower upper : Option Bound) (rest : Except Error Nat → ScanProgram α)
  /-- Reads on while there is to be `more` than the rows read so far. Goes on with these rows and
  with why it stopped: a failure, or whether there may be further rows. -/
  | readWhile (cursor : Nat) (more : List Row → Bool)
      (rest : List Row → Except Error Bool → ScanProgram α)

/-- What a program's reading came to. -/
structure Reading where
  rows : List Row
  stop : Except Error Bool
  cursor : ComputedCursor
  index : ComputedIndex

namespace ScanProgram

variable {α β : Type}

def bind : ScanProgram α → (α → ScanProgram β) → ScanProgram β
  | done a, f => f a
  | openScan lower upper rest, f => openScan lower upper fun n => (rest n).bind f
  | readWhile cursor more rest, f => readWhile cursor more fun rows stop => (rest rows stop).bind f

instance : Monad ScanProgram where
  pure := done
  bind := bind

/-- Reads on with a cursor, at most `limit` rows, adding to the rows read before. -/
def read (more : List Row → Bool) :
    Nat → List Row → ComputedCursor → ComputedIndex → Traced Reading
  | 0, rows, c, ix => pure ⟨rows, .ok true, c, ix⟩
  | limit + 1, rows, c, ix =>
    if more rows then do
      match ← c.next ix with
      | (.ok true, c, ix) => read more limit (rows ++ c.place.current?.toList) c ix
      | (stop, c, ix) => return ⟨rows, stop, c, ix⟩
    else pure ⟨rows, .ok true, c, ix⟩

/-- Runs a program with the given cursors open. A cursor that was never opened has no rows. -/
def run : ScanProgram α → List ComputedCursor → ComputedIndex → Traced (α × ComputedIndex)
  | done a, _, ix => pure (a, ix)
  | openScan lower upper rest, cursors, ix => do
    match ← ix.scan lower upper with
    | (.ok c, ix) => (rest (.ok cursors.length)).run (cursors ++ [c]) ix
    | (.error e, ix) => (rest (.error e)).run cursors ix
  | readWhile n more rest, cursors, ix => do
    match cursors[n]? with
    | none => (rest [] (.ok false)).run cursors ix
    | some c =>
      let r ← read more (c.remaining ix + 1) [] c ix
      (rest r.rows r.stop).run (cursors.set n r.cursor) r.index

/-- Opens a scan and reads it to the end, or up to a number of rows. -/
def scanRows (lower upper : Option Bound) (limit : Option Nat) :
    ScanProgram (Except Error (List Row)) :=
  openScan lower upper fun
    | .error e => done (.error e)
    | .ok cursor =>
      readWhile cursor (fun rows => limit.all (rows.length < ·)) fun
        | _, .error e => done (.error e)
        | rows, .ok _ => done (.ok rows)

/-- The tuples of the working table, each in the table's width. -/
def scanWorking : ScanProgram (Except Error (List Tuple)) := do
  return (← scanRows none none none).map fun rows => rows.map Row.values

end ScanProgram

end IndexScan

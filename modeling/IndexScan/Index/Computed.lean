import IndexScan.Evaluation.Query
import IndexScan.Index.Basic
import IndexScan.Settings

/-! # Computed indexes

A computed index stores nothing. A plain one executes the query of its table for every scan, and
the cursor owns the evaluator and closes it at the end. A recursive one reads the working table
of a recursive query, which all its cursors share: a scan rewinds it, and so does a cursor at
the end, so that the cursor can read it again.

Tuples are made rows of the table's width, and rows out of range are passed over rather than
taken for the end, since the tuples need not come in the index's order.
-/

namespace IndexScan

/-- The shared evaluator of a recursive query. -/
structure WorkingTable where
  evaluator : Evaluator
  /-- Whether somebody else has hold of it. -/
  inUse : Bool := false

/-- Where a computed index takes its tuples from. -/
inductive TupleSource
  | query (q : Query)
  /-- A query that does not compile. -/
  | broken (message : String)
  | working (table : WorkingTable)
  /-- A working table that the index has given up. -/
  | released (table : WorkingTable)

structure ComputedIndex where
  name : String
  table : Table
  order : RowOrder
  source : TupleSource
  stats : Stats := {}

/-- The evaluator that a cursor reads. -/
inductive Feed
  | owned (e : Evaluator)
  /-- The working table of the index. -/
  | shared

structure ComputedCursor where
  feed : Feed
  lower : Option Bound
  upper : Option Bound
  place : Place Row := .beforeFirst

namespace ComputedIndex

/-- The index for a definition of the table, over a source of tuples. -/
def create (t : Table) (name : String) (source : TupleSource) (settings : Settings) :
    Except Error ComputedIndex := do
  let d ← t.requireIndex name
  if d.type ≠ .query then throw (.unsupported s!"index {name} is not a query expression index")
  let order ← RowOrder.ofIndex t d settings.nulls
  return { name, table := t, order, source }

def isRecursive (ix : ComputedIndex) : Bool :=
  match ix.source with
  | .working _ | .released _ => true
  | _ => false

def kind (ix : ComputedIndex) : IndexKind := if ix.isRecursive then .recursive else .query

/-- The query that scans execute. -/
def query? (ix : ComputedIndex) : Option Query :=
  match ix.source with
  | .query q => some q
  | _ => none

/-- Whether the index has no query that fails to compile. -/
def isValid (ix : ComputedIndex) : Bool :=
  match ix.source with
  | .broken _ => false
  | _ => true

def isOrdered (ix : ComputedIndex) : Bool := ix.query?.any Query.isOrdered

/-- Puts a plain index over another source. -/
def withSource (ix : ComputedIndex) (source : TupleSource) : Except Error Unit × ComputedIndex :=
  if ix.isRecursive then
    (.error (.unsupported s!"recursive index {ix.name} has no compiled query"), ix)
  else (.ok (), { ix with source })

/-- Installs a newly compiled query. -/
def setQuery (ix : ComputedIndex) (q : Query) : Except Error Unit × ComputedIndex :=
  ix.withSource (.query q)

/-- Notes that the query does not compile. -/
def invalidate (ix : ComputedIndex) (message : String) : Except Error Unit × ComputedIndex :=
  ix.withSource (.broken message)

/-- The working table, also after it has been given up. -/
def working? (ix : ComputedIndex) : Option WorkingTable :=
  match ix.source with
  | .working w | .released w => some w
  | _ => none

/-- Changes the working table, if there is one. -/
def modifyWorking (ix : ComputedIndex) (f : WorkingTable → WorkingTable) : ComputedIndex :=
  match ix.source with
  | .working w => { ix with source := .working (f w) }
  | .released w => { ix with source := .released (f w) }
  | _ => ix

/-- Takes hold of the working table from outside, or lets go of it. -/
def hold (ix : ComputedIndex) (inUse : Bool) : ComputedIndex :=
  ix.modifyWorking ({ · with inUse })

/-- Gives up the working table, and closes it unless somebody has hold of it. -/
def close (ix : ComputedIndex) : Traced ComputedIndex :=
  match ix.source with
  | .working w => do
    let evaluator ← if w.inUse then pure w.evaluator else w.evaluator.close
    return { ix with source := .released { w with evaluator } }
  | _ => pure ix

/-- Opens a cursor. A scan that is refused is not counted. -/
def scan (ix : ComputedIndex) (lower upper : Option Bound) :
    Traced (Except Error ComputedCursor × ComputedIndex) :=
  match ix.source with
  | .query q => do
    match ← q.execute with
    | .error e => return (.error e, ix)
    | .ok e => return (.ok { feed := .owned e, lower, upper }, counted ix)
  | .broken message => pure (.error (.compilation ix.table.name message), ix)
  | .working w =>
    if w.inUse then pure (.error (.internal s!"working table of {ix.name} is in use"), ix)
    else do
      let (result, evaluator) ← w.evaluator.reset
      let ix := { ix with source := .working { w with evaluator } }
      match result with
      | .error e => return (.error e, ix)
      | .ok () => return (.ok { feed := .shared, lower, upper }, counted ix)
  | .released _ => pure (.error (.internal s!"recursive index {ix.name} is closed"), ix)
where
  counted (ix : ComputedIndex) : ComputedIndex := { ix with stats := ix.stats.recordScan }

/-- The text that describes the index to a developer. -/
def describe (ix : ComputedIndex) : String :=
  let kind := if ix.isRecursive then "Recursive" else "QueryExpression"
  s!"QueryExpressionIndex \x7b name: \"{ix.name}\", table: \"{ix.table.name}\", kind: {kind}, "
    ++ s!"valid: {ix.isValid} \x7d"

end ComputedIndex

namespace ComputedCursor

/-- The evaluator that the cursor reads, unless it is in use. -/
def evaluator (c : ComputedCursor) (ix : ComputedIndex) : Except Error Evaluator :=
  match c.feed, ix.working? with
  | .owned e, _ => .ok e
  | .shared, some ⟨e, false⟩ => .ok e
  | .shared, _ => .error (.internal "working table is in use")

/-- Puts back the evaluator that the cursor has read. -/
def putBack (c : ComputedCursor) (ix : ComputedIndex) (e : Evaluator) :
    ComputedCursor × ComputedIndex :=
  match c.feed with
  | .owned _ => ({ c with feed := .owned e }, ix)
  | .shared => (c, ix.modifyWorking ({ · with evaluator := e }))

/-- What becomes of the evaluator at the end: one of the cursor's own is closed, the shared one
is rewound. -/
def finish (c : ComputedCursor) (e : Evaluator) : Traced (Except Error Unit × Evaluator) :=
  match c.feed with
  | .owned _ => do return (.ok (), ← e.close)
  | .shared => e.reset

/-- Moves to the next row in range and counts it. A plain cursor that has met the end must not be
moved again; a recursive one starts over. -/
def next (c : ComputedCursor) (ix : ComputedIndex) :
    Traced (Except Error Bool × ComputedCursor × ComputedIndex) :=
  if c.place.isExhausted && !ix.isRecursive then
    pure (.error (.internal s!"cursor on {ix.name} advanced after exhaustion"), c, ix)
  else
    match c.evaluator ix with
    | .error err => pure (.error err, c, ix)
    | .ok e =>
      match e.nextRow ix.table.width (ix.order.inRange c.lower c.upper) with
      | (.error err, e) => pure (.error err, c.putBack ix e)
      | (.ok (some r), e) =>
        let (c, ix) := c.putBack ix e
        pure (.ok true, { c with place := .on r }, { ix with stats := ix.stats.recordRow })
      | (.ok none, e) => do
        let (result, e) ← c.finish e
        let (c, ix) := c.putBack ix e
        return (result.map fun () => false, { c with place := .exhausted }, ix)

def remaining (c : ComputedCursor) (ix : ComputedIndex) : Nat :=
  match c.evaluator ix with
  | .ok e => e.remaining
  | .error _ => 0

end ComputedCursor

instance : Index ComputedIndex where
  Cursor := ComputedCursor
  name := ComputedIndex.name
  table := ComputedIndex.table
  kind := ComputedIndex.kind
  order := ComputedIndex.order
  isOrdered := ComputedIndex.isOrdered
  stats := ComputedIndex.stats
  scan := ComputedIndex.scan
  next ix c := c.next ix
  previous ix c := pure (.error (.unsupported s!"cursor on {ix.name} only moves forward"), c, ix)
  place := ComputedCursor.place
  remaining ix c := c.remaining ix

end IndexScan

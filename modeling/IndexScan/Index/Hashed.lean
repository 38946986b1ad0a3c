import IndexScan.Index.Basic
import IndexScan.Index.RowStore
import IndexScan.KeyTable

/-! # Hashed indexes

A hashed index stores rows and finds them by the whole of their key. Since the keys are in no
order, a scan has to pin every key column to one value.
-/

namespace IndexScan

structure HashedIndex where
  store : RowStore
  order : RowOrder
  keys : KeyTable Key

structure HashedCursor where
  /-- The rows still to be given. -/
  waiting : List Row
  place : Place Row := .beforeFirst

namespace HashedIndex

/-- The empty index for a definition of the table. -/
def create (t : Table) (name : String) (settings : Settings) : Except Error HashedIndex := do
  let d ← t.requireIndex name
  if d.type ≠ .hash then throw (.unsupported s!"index {name} is not a hash index")
  let order ← RowOrder.ofIndex t d settings.nulls
  return { store := { index := name, table := t }, order, keys := { unique := d.unique } }

/-- Stores a row. -/
def insert (ix : HashedIndex) (r : Row) : Except Error Unit × HashedIndex :=
  match ix.store.check r with
  | .error e => (.error e, ix)
  | .ok () =>
    let key := ix.order.keyOf r
    match ix.keys.insert key r.id with
    | (.ok (), keys) => (.ok (), { ix with store := ix.store.insert r, keys })
    | (.error .duplicateKey, keys) =>
      (.error (.duplicateKey ix.store.index (keyValue key)), { ix with keys })

/-- Takes out the row with the given identity. -/
def erase (ix : HashedIndex) (id : RowId) : Option Row × HashedIndex :=
  match ix.store.row? id with
  | none => (none, ix)
  | some r =>
    (some r, { ix with
      store := ix.store.erase id
      keys := ix.keys.erase (ix.order.keyOf r) (some id) })

def size (ix : HashedIndex) : Nat := ix.store.size

def stats (ix : HashedIndex) : Stats := ix.keys.stats

/-- The one key that the bounds of a scan pin. -/
def pinnedKey (ix : HashedIndex) (lower upper : Option Bound) : Except Error Key :=
  match lower, upper with
  | some l, some u =>
    if ix.order.covers l && ix.order.covers u && ix.order.compareRows l u == .eq then
      .ok (ix.order.keyOf l)
    else
      .error (.unsupported
        s!"hash index {ix.store.index} supports equality scans on its full key only")
  | _, _ => .error (.unsupported s!"hash index {ix.store.index} needs both scan bounds")

def scan (ix : HashedIndex) (lower upper : Option Bound) :
    Except Error HashedCursor × HashedIndex :=
  match ix.pinnedKey lower upper with
  | .error e => (.error e, ix)
  | .ok key =>
    let rows := (ix.keys.get key).mapM ix.store.require
    (rows.map fun waiting => { waiting }, { ix with keys := ix.keys.recordScan })

/-- Moves to the next row and counts it. -/
def next (ix : HashedIndex) (c : HashedCursor) : Except Error Bool × HashedCursor × HashedIndex :=
  match c.waiting with
  | r :: waiting =>
    (.ok true, { waiting, place := .on r }, { ix with keys := ix.keys.recordRow })
  | [] => (.ok false, { c with place := .exhausted }, ix)

instance : Index HashedIndex where
  Cursor := HashedCursor
  name ix := ix.store.index
  table ix := ix.store.table
  kind _ := .hash
  order := order
  isOrdered _ := false
  stats := stats
  scan ix lower upper := pure (ix.scan lower upper)
  next ix c := pure (ix.next c)
  previous ix c := pure (.error (.unsupported "hash index cursors only move forward"), c, ix)
  place := HashedCursor.place
  remaining _ c := c.waiting.length

end HashedIndex

end IndexScan

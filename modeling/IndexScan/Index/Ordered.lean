import IndexScan.Index.Basic
import IndexScan.Index.RowStore
import IndexScan.KeyTree

/-! # Ordered indexes

An ordered index stores rows and keeps their keys in an ordered tree. A scan seeks the lower
bound in the tree and goes on until a key is above the upper bound. Its cursor moves in both
directions and may turn around anywhere, beyond either end as well.
-/

namespace IndexScan

structure OrderedIndex where
  store : RowStore
  order : RowOrder
  tree : KeyTree Key order.compareKeys

structure OrderedCursor where
  lower : Option Bound
  upper : Option Bound
  place : Place (Position × Row) := .beforeFirst

namespace OrderedIndex

/-- The empty index for a definition of the table. -/
def create (t : Table) (name : String) (settings : Settings) : Except Error OrderedIndex := do
  let d ← t.requireIndex name
  if d.type ≠ .btree then throw (.unsupported s!"index {name} is not a B-tree index")
  let order ← RowOrder.ofIndex t d settings.nulls
  return { store := { index := name, table := t }, order, tree := .empty settings.fanout d.unique }

/-- Stores a row. -/
def insert (ix : OrderedIndex) (r : Row) : Except Error Unit × OrderedIndex :=
  match ix.store.check r with
  | .error e => (.error e, ix)
  | .ok () =>
    let key := ix.order.keyOf r
    match ix.tree.insert key r.id with
    | (.ok (), tree) => (.ok (), { ix with store := ix.store.insert r, tree })
    | (.error .duplicateKey, tree) =>
      (.error (.duplicateKey ix.store.index (keyValue key)), { ix with tree })

/-- Takes out the row with the given identity. -/
def erase (ix : OrderedIndex) (id : RowId) : Option Row × OrderedIndex :=
  match ix.store.row? id with
  | none => (none, ix)
  | some r =>
    (some r, { ix with
      store := ix.store.erase id
      tree := ix.tree.erase (ix.order.keyOf r) (some id) })

/-- The rows with a key. -/
def get (ix : OrderedIndex) (key : Key) : List Row := (ix.tree.get key).filterMap ix.store.row?

def size (ix : OrderedIndex) : Nat := ix.store.size

def stats (ix : OrderedIndex) : Stats := ix.tree.stats

def recordRow (ix : OrderedIndex) : OrderedIndex := { ix with tree := ix.tree.recordRow }

def belowBound (ix : OrderedIndex) (b : Bound) (key : Key) : Bool :=
  ix.order.compareKeyWith key b == .lt

def aboveBound (ix : OrderedIndex) (b : Bound) (key : Key) : Bool :=
  ix.order.compareKeyWith key b == .gt

def scan (ix : OrderedIndex) (lower upper : Option Bound) : OrderedCursor × OrderedIndex :=
  ({ lower, upper }, { ix with tree := ix.tree.recordScan })

end OrderedIndex

namespace OrderedCursor

/-- The position of the first key that is not below the lower bound. -/
def firstInRange (c : OrderedCursor) (ix : OrderedIndex) : Option Position :=
  match c.lower with
  | some b => ix.tree.seek? (ix.belowBound b)
  | none => ix.tree.first?

/-- The position of the last key that is not above the upper bound. -/
def lastInRange (c : OrderedCursor) (ix : OrderedIndex) : Option Position :=
  match c.upper with
  | some b =>
    match ix.tree.seek? (fun key => !ix.aboveBound b key) with
    | some past => ix.tree.previous? past
    | none => ix.tree.last?
  | none => ix.tree.last?

def holds (c : OrderedCursor) (ix : OrderedIndex) (key : Key) : Bool :=
  !c.upper.any (ix.aboveBound · key) && !c.lower.any (ix.belowBound · key)

/-- The identity at a position whose key is in range. -/
def inRange? (c : OrderedCursor) (ix : OrderedIndex) (p : Position) : Option RowId :=
  (ix.tree.pair? p).bind fun (key, id) => if c.holds ix key then some id else none

/-- Goes to a position if it is in range, and to the given end of the scan otherwise. -/
def land (c : OrderedCursor) (ix : OrderedIndex) (target : Option Position)
    (otherwise : Place (Position × Row)) : Except Error Bool × OrderedCursor :=
  match target.bind fun p => (c.inRange? ix p).map (p, ·) with
  | some (p, id) =>
    match ix.store.require id with
    | .ok r => (.ok true, { c with place := .on (p, r) })
    | .error e => (.error e, c)
  | none => (.ok false, { c with place := otherwise })

def next (c : OrderedCursor) (ix : OrderedIndex) : Except Error Bool × OrderedCursor :=
  match c.place with
  | .beforeFirst => c.land ix (c.firstInRange ix) .exhausted
  | .on (p, _) => c.land ix (ix.tree.next? p) .exhausted
  | .exhausted => (.ok false, c)

def previous (c : OrderedCursor) (ix : OrderedIndex) : Except Error Bool × OrderedCursor :=
  match c.place with
  | .beforeFirst => (.ok false, c)
  | .on (p, _) => c.land ix (ix.tree.previous? p) .beforeFirst
  | .exhausted => c.land ix (c.lastInRange ix) .beforeFirst

end OrderedCursor

namespace OrderedIndex

/-- Counts the row that a move has arrived at. -/
def counted (ix : OrderedIndex) : Except Error Bool × OrderedCursor →
    Except Error Bool × OrderedCursor × OrderedIndex
  | (.ok true, c) => (.ok true, c, ix.recordRow)
  | (result, c) => (result, c, ix)

instance : Index OrderedIndex where
  Cursor := OrderedCursor
  name ix := ix.store.index
  table ix := ix.store.table
  kind _ := .btree
  order := order
  isOrdered _ := true
  stats := stats
  scan ix lower upper := pure ((ix.scan lower upper).map .ok id)
  next ix c := pure (ix.counted (c.next ix))
  previous ix c := pure (ix.counted (c.previous ix))
  place c := c.place.map Prod.snd
  remaining ix _ := ix.tree.toList.length

end OrderedIndex

end IndexScan

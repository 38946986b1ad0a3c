import IndexScan.KeyTree.Position
import IndexScan.Settings
import IndexScan.Stats

/-! # Ordered trees

An ordered tree records row identities under keys and lists them in the order of a comparison.
Where keys have to be unique, a key that is present refuses further identities.

Answers come from the arena of the tree. The values that stand in for an answer the arena does
not give are never used: see `IndexScan.Proofs.KeyTree.Soundness`.
-/

namespace IndexScan

structure KeyTree (κ : Type) (cmp : κ → κ → Ordering) where
  /-- A node with this many keys is divided. -/
  fanout : Nat
  minFanout_le : minFanout ≤ fanout
  unique : Bool
  arena : Arena κ
  stats : Stats

namespace KeyTree

variable {κ : Type} {cmp : κ → κ → Ordering}

/-- The empty tree. A fan-out below the least one is replaced by that. -/
def empty (fanout : Nat) (unique : Bool) : KeyTree κ cmp where
  fanout := max fanout minFanout
  minFanout_le := Nat.le_max_right ..
  unique := unique
  arena := .empty
  stats := {}

def contains (t : KeyTree κ cmp) (key : κ) : Bool := (t.arena.contains cmp key).getD false

/-- The identities recorded under a key, in the order in which they came. -/
def get (t : KeyTree κ cmp) (key : κ) : List RowId := (t.arena.get cmp key).getD []

/-- Records an identity under a key. -/
def insert (t : KeyTree κ cmp) (key : κ) (id : RowId) : Except KeyFault Unit × KeyTree κ cmp :=
  match (t.arena.insert cmp t.fanout t.unique key id).getD (.ok (), t.arena) with
  | (.ok (), arena) => (.ok (), { t with arena, stats := t.stats.addRows 1 })
  | (.error e, arena) => (.error e, { t with arena })

/-- Forgets one identity under a key, or the key. -/
def erase (t : KeyTree κ cmp) (key : κ) (id? : Option RowId) : KeyTree κ cmp :=
  let (removed, arena) := (t.arena.erase cmp key id?).getD (0, t.arena)
  { t with arena, stats := t.stats.removeRows (.ofNat removed) }

/-- Forgets everything but the scans. -/
def clear (t : KeyTree κ cmp) : KeyTree κ cmp :=
  { t with arena := .empty, stats := t.stats.clear }

/-- The number of identities recorded. -/
def size (t : KeyTree κ cmp) : Nat := t.stats.totalRows.toNat

/-- The number of nodes on the way from the root to a leaf. -/
def depth (t : KeyTree κ cmp) : Nat := t.arena.depth.getD 0

/-- The position of the first identity. -/
def first? (t : KeyTree κ cmp) : Option Position := t.arena.first.join

/-- The position of the last identity. -/
def last? (t : KeyTree κ cmp) : Option Position := t.arena.last.join

/-- The position of the first identity whose key is not `below`. -/
def seek? (t : KeyTree κ cmp) (below : κ → Bool) : Option Position := (t.arena.seek below).join

/-- The position after another. -/
def next? (t : KeyTree κ cmp) (p : Position) : Option Position := (t.arena.next p).join

/-- The position before another. -/
def previous? (t : KeyTree κ cmp) (p : Position) : Option Position := (t.arena.previous p).join

/-- The identity at a position, with its key. -/
def pair? (t : KeyTree κ cmp) (p : Position) : Option (κ × RowId) := t.arena.pair p

/-- The identities from a position to the end, each with its key. -/
def ahead (t : KeyTree κ cmp) (p : Option Position) : List (κ × RowId) :=
  (t.arena.walk t.arena.next p).getD []

/-- The identities from a position back to the beginning, each with its key. -/
def behind (t : KeyTree κ cmp) (p : Option Position) : List (κ × RowId) :=
  (t.arena.walk t.arena.previous p).getD []

/-- The identities in ascending order of their keys, each with its key. -/
def toList (t : KeyTree κ cmp) : List (κ × RowId) := t.ahead t.first?

/-- The identities in descending order of their keys. -/
def toListReversed (t : KeyTree κ cmp) : List (κ × RowId) := t.behind t.last?

/-- The identities from the first whose key is not `below`. -/
def toListFrom (t : KeyTree κ cmp) (below : κ → Bool) : List (κ × RowId) :=
  t.ahead (t.seek? below)

def recordScan (t : KeyTree κ cmp) : KeyTree κ cmp := { t with stats := t.stats.recordScan }

def recordRow (t : KeyTree κ cmp) : KeyTree κ cmp := { t with stats := t.stats.recordRow }

end KeyTree

end IndexScan

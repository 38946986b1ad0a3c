import IndexScan.KeyTree
import IndexScan.Value.Digest
import Std.Data.HashMap

/-! # Hash tables of keys

A hash table records row identities under keys as an ordered tree does, but knows no order
among the keys: two keys are the same or not.
-/

namespace IndexScan

structure KeyTable (κ : Type) [BEq κ] [Hashable κ] where
  unique : Bool
  map : Std.HashMap κ (List RowId) := ∅
  stats : Stats := {}

namespace KeyTable

variable {κ : Type} [BEq κ] [Hashable κ]

/-- The identities recorded under a key, in the order in which they came. -/
def get (t : KeyTable κ) (key : κ) : List RowId := t.map.getD key []

def contains (t : KeyTable κ) (key : κ) : Bool := t.map.contains key

/-- Records an identity under a key. -/
def insert (t : KeyTable κ) (key : κ) (id : RowId) : Except KeyFault Unit × KeyTable κ :=
  if t.unique && t.contains key then (.error .duplicateKey, t)
  else
    let map := t.map.insert key (t.get key ++ [id])
    (.ok (), { t with map, stats := t.stats.addRows 1 })

/-- The table with the identities under a key replaced; a key without any goes away. -/
def withIds (t : KeyTable κ) (key : κ) (ids : List RowId) : Std.HashMap κ (List RowId) :=
  if ids.isEmpty then t.map.erase key else t.map.insert key ids

/-- Forgets one identity under a key, or the key. -/
def erase (t : KeyTable κ) (key : κ) : Option RowId → KeyTable κ
  | some id =>
    { t with
      map := t.withIds key ((t.get key).filter (· != id))
      stats := t.stats.removeRows (.ofNat ((t.get key).count id)) }
  | none =>
    { t with
      map := t.map.erase key
      stats := t.stats.removeRows (.ofNat (t.get key).length) }

/-- Forgets everything but the scans. -/
def clear (t : KeyTable κ) : KeyTable κ := { t with map := ∅, stats := t.stats.clear }

/-- The number of identities recorded. -/
def size (t : KeyTable κ) : Nat := t.stats.totalRows.toNat

/-- All identities, in no particular order. -/
def allIds (t : KeyTable κ) : List RowId := t.map.values.flatten

def recordScan (t : KeyTable κ) : KeyTable κ := { t with stats := t.stats.recordScan }

def recordRow (t : KeyTable κ) : KeyTable κ := { t with stats := t.stats.recordRow }

end KeyTable

end IndexScan

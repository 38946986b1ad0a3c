import IndexScan.KeyTable
import IndexScan.KeyTree

/-! # Key indexes

What ordered trees and hash tables have in common: identities are recorded under keys, found
again by a key, and forgotten.
-/

namespace IndexScan

class KeyIndex (ι : Type) (κ : outParam Type) where
  insert : ι → κ → RowId → Except KeyFault Unit × ι
  get : ι → κ → List RowId
  contains : ι → κ → Bool
  erase : ι → κ → Option RowId → ι
  clear : ι → ι
  /-- The number of identities recorded. -/
  size : ι → Nat
  unique : ι → Bool
  stats : ι → Stats

namespace KeyIndex

variable {ι κ : Type}

instance {cmp : κ → κ → Ordering} : KeyIndex (KeyTree κ cmp) κ where
  insert := KeyTree.insert
  get := KeyTree.get
  contains := KeyTree.contains
  erase := KeyTree.erase
  clear := KeyTree.clear
  size := KeyTree.size
  unique := KeyTree.unique
  stats := KeyTree.stats

instance [BEq κ] [Hashable κ] : KeyIndex (KeyTable κ) κ where
  insert := KeyTable.insert
  get := KeyTable.get
  contains := KeyTable.contains
  erase := KeyTable.erase
  clear := KeyTable.clear
  size := KeyTable.size
  unique := KeyTable.unique
  stats := KeyTable.stats

variable [KeyIndex ι κ]

def isEmpty (ix : ι) : Bool := size ix == 0

end KeyIndex

end IndexScan

import IndexScan.Index.Hashed
import IndexScan.Index.Ordered

/-! # Indexes that store rows

What ordered and hashed indexes have in common beyond being indexes: rows are put in and taken
out again.
-/

namespace IndexScan

class StoredIndex (ι : Type) extends Index ι where
  insert : ι → Row → Except Error Unit × ι
  /-- Takes out the row with an identity, if there is one. -/
  erase : ι → RowId → Option Row × ι
  /-- The number of rows. -/
  size : ι → Nat

instance : StoredIndex OrderedIndex where
  insert := OrderedIndex.insert
  erase := OrderedIndex.erase
  size := OrderedIndex.size

instance : StoredIndex HashedIndex where
  insert := HashedIndex.insert
  erase := HashedIndex.erase
  size := HashedIndex.size

namespace StoredIndex

variable {ι : Type} [StoredIndex ι]

def isEmpty (ix : ι) : Bool := size ix == 0

end StoredIndex

end IndexScan

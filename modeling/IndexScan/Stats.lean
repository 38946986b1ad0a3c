/-! # Statistics of an index

Counters of 64 bits, which wrap around.
-/

namespace IndexScan

structure Stats where
  /-- Row identities stored in the index. -/
  totalRows : UInt64 := 0
  /-- Scans opened. -/
  scans : UInt64 := 0
  /-- Rows that all scans together have returned. -/
  rowsReturned : UInt64 := 0
  deriving DecidableEq, Repr, Inhabited

namespace Stats

def addRows (s : Stats) (n : UInt64) : Stats := { s with totalRows := s.totalRows + n }

def removeRows (s : Stats) (n : UInt64) : Stats := { s with totalRows := s.totalRows - n }

def recordScan (s : Stats) : Stats := { s with scans := s.scans + 1 }

def recordRow (s : Stats) : Stats := { s with rowsReturned := s.rowsReturned + 1 }

/-- Forgets the stored rows but not the scans. -/
def clear (s : Stats) : Stats := { s with totalRows := 0 }

end Stats

end IndexScan

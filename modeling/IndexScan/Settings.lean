import IndexScan.Schema.IndexDef

/-! # Settings

What an index takes from its engine when it is made.
-/

namespace IndexScan

/-- The least fan-out of an ordered tree. -/
def minFanout : Nat := 4

structure Settings where
  /-- Where NULL stands in the key columns. -/
  nulls : NullPlacement := .low
  /-- How many keys a node of an ordered tree may not reach. -/
  fanout : Nat := 64
  /-- How often the step of a recursive query may run. -/
  recursionLimit : Nat := 1024
  deriving DecidableEq, Repr, Inhabited

namespace Settings

def withNulls (s : Settings) (nulls : NullPlacement) : Settings := { s with nulls }

/-- Sets the fan-out, or the least one if that is more. -/
def withFanout (s : Settings) (fanout : Nat) : Settings := { s with fanout := max fanout minFanout }

def withRecursionLimit (s : Settings) (limit : Nat) : Settings := { s with recursionLimit := limit }

end Settings

end IndexScan

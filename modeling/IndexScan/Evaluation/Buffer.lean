import IndexScan.Error

/-! # Buffers

A buffer keeps tuples in memory and reads them in order. A reader that has met the end stays
there until it is rewound, even when tuples are appended. Closing drops the tuples and ends
reading for good.
-/

namespace IndexScan

/-- How far a buffer is read. -/
inductive Buffer.Reader
  /-- The number of tuples delivered; the last of them is the current one. -/
  | delivered (n : Nat)
  /-- The end has been reported. -/
  | ended
  | closed
  deriving DecidableEq, Repr

structure Buffer where
  width : Nat
  rows : List Tuple := []
  reader : Buffer.Reader := .delivered 0
  deriving Repr

namespace Buffer

def isClosed (b : Buffer) : Bool := b.reader == .closed

/-- The current tuple, or no cells where there is none. -/
def current (b : Buffer) : Tuple :=
  match b.reader with
  | .delivered (n + 1) => b.rows.getD n []
  | _ => []

/-- The number of tuples that reading on would deliver. -/
def remaining (b : Buffer) : Nat :=
  match b.reader with
  | .delivered n => b.rows.length - n
  | _ => 0

/-- Moves to the next tuple, and tells whether there is one. -/
def next (b : Buffer) : Except Error Bool × Buffer :=
  match b.reader with
  | .closed => (.error (.internal "read from a closed result"), b)
  | .ended => (.ok false, b)
  | .delivered n =>
    if n < b.rows.length then (.ok true, { b with reader := .delivered (n + 1) })
    else (.ok false, { b with reader := .ended })

/-- Goes back to before the first tuple. -/
def reset (b : Buffer) : Except Error Unit × Buffer :=
  if b.isClosed then (.error (.internal "reset of a closed result"), b)
  else (.ok (), { b with reader := .delivered 0 })

def close (b : Buffer) : Buffer := { b with rows := [], reader := .closed }

/-- Appends a tuple. -/
def push (b : Buffer) (t : Tuple) : Buffer := { b with rows := b.rows ++ [t] }

/-- Replaces all tuples and goes back to before the first. A closed buffer stays closed. -/
def replace (b : Buffer) (rows : List Tuple) : Buffer :=
  { b with rows, reader := if b.isClosed then .closed else .delivered 0 }

end Buffer

end IndexScan

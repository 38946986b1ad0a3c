import IndexScan.Recursion.RecursiveQuery

/-! # Steps of recursive queries

A step in the common form: it reads the working table, once or several times, and derives tuples
from the rows read, taken together.
-/

namespace IndexScan

/-- One reading of the working table by a step. -/
structure WorkingScan where
  lower : Option Bound := none
  upper : Option Bound := none
  /-- Leaves the scan after this number of rows. -/
  limit : Option Nat := none

/-- How a step derives tuples. -/
inductive Derivation
  /-- From a row that begins with an integer below `limit`, the integer `increment` above it. -/
  | successor (increment limit : Int64)
  /-- From a row, the ends of all edges that start at its first cell. -/
  | edges (list : List (Value × Value))
  /-- From a row, its cells in the given columns. -/
  | project (columns : List Nat)
  /-- Nothing from the rows; the outcomes are known in advance, one for each call of the step. -/
  | prepared (outcomes : List (Except Error (List Tuple)))

structure Member where
  scans : List WorkingScan
  derivation : Derivation

/-- What a step remembers of its calls. -/
structure Member.State where
  calls : Nat := 0
  /-- The tuples of every scan, the latest first. -/
  readings : List (List Tuple) := []

namespace Derivation

def ofTuple : Derivation → Tuple → List Tuple
  | successor increment limit, t =>
    match (t.head?.bind Value.toInt64?) with
    | some n => if n < limit then [[.int64 (n + increment)]] else []
    | none => []
  | edges list, t =>
    let node := t.headD .null
    (list.filter fun e => e.1 == node).map fun e => [e.2]
  | project columns, t => [columns.map fun i => t.getD i .null]
  | prepared _, _ => []

/-- The tuples derived by the call with the given number. -/
def derive (d : Derivation) (call : Nat) (ts : List Tuple) : Except Error (List Tuple) :=
  match d with
  | prepared outcomes => outcomes.getD call (.ok [])
  | d => .ok (ts.flatMap d.ofTuple)

end Derivation

namespace Member

/-- Makes the scans one after the other, noting what they read. -/
def readAll : List WorkingScan → State → ScanProgram (Except Error (List Tuple) × State)
  | [], s => return (.ok [], s)
  | w :: rest, s => do
    match ← ScanProgram.scanRows w.lower w.upper w.limit with
    | .error e => return (.error e, s)
    | .ok rows =>
      let ts := rows.map Row.values
      let (more, s) ← readAll rest { s with readings := ts :: s.readings }
      return (more.map (ts ++ ·), s)

def step (m : Member) (s : State) : ScanProgram (Except Error (List Tuple) × State) := do
  let call := s.calls
  let (read, s) ← readAll m.scans { s with calls := call + 1 }
  return (read.bind (m.derivation.derive call), s)

end Member

end IndexScan

import IndexScan.Recursion.ScanProgram
import IndexScan.Value.Distinct

/-! # Recursive queries

A recursive query has an anchor and a step. The anchor's tuples are the first working table. The
step derives tuples from the working table, and these are the next one, until a step derives
none. The result is all tuples in the order in which they appeared. With `UNION` a tuple that
has appeared before is dropped; with `UNION ALL` it is kept.
-/

namespace IndexScan

/-- The step may keep a state `σ` from call to call. -/
structure RecursiveQuery (σ : Type) where
  table : Table
  /-- The index through which the step reads the working table. -/
  index : String
  anchor : Query
  step : σ → ScanProgram (Except Error (List Tuple) × σ)
  unionAll : Bool := true
  settings : Settings := {}

namespace RecursiveQuery

variable {σ : Type}

abbrev Seen := Std.HashSet Tuple

/-- The tuples to keep of those derived. -/
def keep (q : RecursiveQuery σ) (ts : List Tuple) (seen : Seen) : List Tuple × Seen :=
  if q.unionAll then (ts, seen) else Distinct.unseen ts seen

def limitError (q : RecursiveQuery σ) : Error :=
  let limit := q.settings.recursionLimit
  .evaluation s!"recursive query {q.table.name} did not finish within {limit} iterations"

/-- The tuples of the anchor. A failed evaluation is not closed. -/
def readAnchor (q : RecursiveQuery σ) : Traced (Except Error (List Tuple)) := do
  match ← q.anchor.execute with
  | .error e => return .error e
  | .ok e =>
    match e.readAll with
    | (.error err, _) => return .error err
    | (.ok ts, e) =>
      let _ ← e.close
      return .ok ts

/-- Puts tuples into the working table. -/
def setWorking (ix : ComputedIndex) (ts : List Tuple) : ComputedIndex :=
  ix.modifyWorking fun w =>
    match w.evaluator with
    | .buffer b => { w with evaluator := .buffer (b.replace ts) }
    | .playback _ => w

/-- Runs the step at most `left` times more, from the working table `ts`. What is derived from it
on is given back, and the index and the state as they are at the end. -/
def iterate (q : RecursiveQuery σ) :
    Nat → List Tuple → Seen → σ → ComputedIndex →
      Traced (Except Error (List Tuple) × σ × ComputedIndex)
  | _, [], _, s, ix => pure (.ok [], s, ix)
  | 0, _ :: _, _, s, ix => pure (.error q.limitError, s, ix)
  | left + 1, _ :: _, seen, s, ix => do
    match ← (q.step s).run [] ix with
    | ((.error e, s), ix) => return (.error e, s, ix)
    | ((.ok derived, s), ix) =>
      let (fresh, seen) := q.keep derived seen
      let (rest, s, ix) ← iterate q left fresh seen s (setWorking ix fresh)
      return (rest.map (fresh ++ ·), s, ix)

/-- Evaluates the query, and gives the step's state back. -/
def evaluate (q : RecursiveQuery σ) (s : σ) : Traced (Except Error Buffer × σ) := do
  match ← q.readAnchor with
  | .error e => return (.error e, s)
  | .ok ts =>
    let (seed, seen) := q.keep ts ∅
    let width := q.table.width
    let working : WorkingTable := { evaluator := .buffer { width, rows := seed } }
    match ComputedIndex.create q.table q.index (.working working) q.settings with
    | .error e => return (.error e, s)
    | .ok ix =>
      let (rest, s, ix) ← q.iterate q.settings.recursionLimit seed seen s ix
      let _ ← ix.close
      return (rest.map fun rest => { width, rows := seed ++ rest }, s)

end RecursiveQuery

end IndexScan

import IndexScan.Evaluation.Evaluator

/-! # Compiled queries

A compiled query can be executed any number of times, each time with a fresh evaluator.
-/

namespace IndexScan

/-- The query that lists its tuples. -/
structure ValuesQuery where
  width : Nat
  rows : List Tuple
  /-- Whether the tuples are declared to be in the order of the index they are read through. -/
  ordered : Bool := false
  deriving Repr

namespace ValuesQuery

def chars (q : ValuesQuery) : List Char :=
  "VALUES ".toList ++ List.intercalate ", ".toList (q.rows.map Value.tupleChars)

/-- The text of the query. -/
def text (q : ValuesQuery) : String := String.ofList q.chars

def execute (q : ValuesQuery) : Buffer := { width := q.width, rows := q.rows }

end ValuesQuery

inductive Query
  | values (q : ValuesQuery)
  | recorded (r : Recording)
  deriving Repr

namespace Query

def text : Query → String
  | values q => q.text
  | recorded r => r.query

/-- The width of the tuples the query announces. -/
def width : Query → Nat
  | values q => q.width
  | recorded r => r.width

def isOrdered : Query → Bool
  | values q => q.ordered
  | recorded _ => false

def execute : Query → Traced (Except Error Evaluator)
  | values q => pure (.ok (.buffer q.execute))
  | recorded r => do
    Traced.emit .executed
    match r.executeFailure with
    | some e => return .error e
    | none => return .ok (.playback { recording := r })

end Query

end IndexScan

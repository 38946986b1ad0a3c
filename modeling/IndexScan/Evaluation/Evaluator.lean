import IndexScan.Evaluation.Buffer
import IndexScan.Evaluation.Recording
import IndexScan.Evaluation.Trace
import IndexScan.Row

/-! # Evaluators

An evaluator delivers the tuples of one evaluation of a query, one after the other. Buffers work
inside the engine; of a playback, rewinding and closing can be observed.
-/

namespace IndexScan

inductive Evaluator
  | buffer (b : Buffer)
  | playback (p : Playback)
  deriving Repr

namespace Evaluator

def width : Evaluator → Nat
  | buffer b => b.width
  | playback p => p.recording.width

/-- Whether the evaluator can no longer be read. -/
def isClosed : Evaluator → Bool
  | buffer b => b.isClosed
  | playback _ => false

/-- The current tuple. It may be narrower or wider than the rows made from it. -/
def current : Evaluator → Tuple
  | buffer b => b.current
  | playback p => p.current

/-- An upper limit of the number of tuples still to be delivered. -/
def remaining : Evaluator → Nat
  | buffer b => b.remaining
  | playback p => p.remaining

/-- Moves to the next tuple, and tells whether there is one. -/
def next : Evaluator → Except Error Bool × Evaluator
  | buffer b => (b.next.1, buffer b.next.2)
  | playback p => (p.next.1, playback p.next.2)

/-- Goes back to before the first tuple. -/
def reset : Evaluator → Traced (Except Error Unit × Evaluator)
  | buffer b => pure (b.reset.1, buffer b.reset.2)
  | playback p => do
    Traced.emit .rewound
    return (p.reset.1, playback p.reset.2)

def close : Evaluator → Traced Evaluator
  | buffer b => pure (buffer b.close)
  | playback p => do
    Traced.emit .closed
    return playback p

theorem remaining_next_lt {e e' : Evaluator} (h : e.next = (.ok true, e')) :
    e'.remaining < e.remaining := by
  cases e with
  | buffer b =>
    simp only [next, Buffer.next, Prod.mk.injEq] at h
    obtain ⟨hr, rfl⟩ := h
    cases hb : b.reader with
    | delivered n =>
      by_cases hn : n < b.rows.length <;> simp [hb, hn] at hr
      simp only [remaining, Buffer.remaining, hb, hn, if_true]
      omega
    | ended => simp [hb] at hr
    | closed => simp [hb] at hr
  | playback p =>
    simp only [next, Playback.next, Prod.mk.injEq] at h
    obtain ⟨hr, rfl⟩ := h
    cases hf : p.failure? with
    | some err => simp [hf] at hr
    | none =>
      by_cases hn : p.position < p.recording.tuples.length <;> simp [hf, hn] at hr
      simp only [remaining, Playback.remaining, hn, if_true]
      omega

/-- Reads on to the end. -/
def readAll (e : Evaluator) : Except Error (List Tuple) × Evaluator :=
  match _h : e.next with
  | (.error err, e) => (.error err, e)
  | (.ok false, e) => (.ok [], e)
  | (.ok true, e) =>
    let (rest, last) := e.readAll
    (rest.map (e.current :: ·), last)
termination_by e.remaining
decreasing_by exact remaining_next_lt _h

/-- Reads on to the next tuple that makes a row to be kept. Rows have the given width. -/
def nextRow (width : Nat) (keep : Row → Bool) (e : Evaluator) :
    Except Error (Option Row) × Evaluator :=
  match _h : e.next with
  | (.error err, e) => (.error err, e)
  | (.ok false, e) => (.ok none, e)
  | (.ok true, e) =>
    let row := (Row.template width).fill e.current
    if keep row then (.ok (some row), e) else e.nextRow width keep
termination_by e.remaining
decreasing_by exact remaining_next_lt _h

end Evaluator

end IndexScan

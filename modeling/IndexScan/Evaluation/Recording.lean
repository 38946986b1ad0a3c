import IndexScan.Error

/-! # Recordings

A recording is an evaluation known in advance: the tuples it delivers and the failures it
meets. Playing it back shows what the engine makes of any evaluation, a failing one included.
-/

namespace IndexScan

/-- A recorded evaluation. A failure is met again whenever its place is reached again. -/
structure Recording where
  query : String
  width : Nat
  tuples : List Tuple
  /-- The failure of moving on after the given number of tuples. -/
  failure : Option (Nat × Error) := none
  executeFailure : Option Error := none
  resetFailure : Option Error := none
  deriving Repr

/-- A recording that is being played back. Closing has no effect on it. -/
structure Playback where
  recording : Recording
  /-- The number of tuples delivered. -/
  position : Nat := 0
  deriving Repr

namespace Playback

/-- The tuple delivered last, also after the end. -/
def current (p : Playback) : Tuple :=
  match p.position with
  | 0 => []
  | n + 1 => p.recording.tuples.getD n []

/-- The number of tuples that reading on would deliver if nothing failed. -/
def remaining (p : Playback) : Nat := p.recording.tuples.length - p.position

/-- The failure of moving on. -/
def failure? (p : Playback) : Option Error :=
  match p.recording.failure with
  | some (n, e) => if n = p.position then some e else none
  | none => none

def next (p : Playback) : Except Error Bool × Playback :=
  match p.failure? with
  | some e => (.error e, p)
  | none =>
    if p.position < p.recording.tuples.length then (.ok true, { p with position := p.position + 1 })
    else (.ok false, p)

def reset (p : Playback) : Except Error Unit × Playback :=
  match p.recording.resetFailure with
  | some e => (.error e, p)
  | none => (.ok (), { p with position := 0 })

end Playback

end IndexScan

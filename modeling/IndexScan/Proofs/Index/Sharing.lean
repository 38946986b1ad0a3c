import IndexScan.Proofs.Index.Restart

/-!
# Cursors that share a working table

The cursors of a recursive index have one reader between them.  `SharedReader` is what they answer
together: a scan puts the reader before the first tuple, and a cursor that is moved takes the first row
that is in its own range of the tuples ahead, or puts the reader back when there is none.  The index
answers any turns like this (`Shares.session`).  So a cursor that is moved alone from the start gives
all its rows (`SharedReader.session_lap`), and one that is moved in turn with another loses the rows
that the other takes.
-/

namespace IndexScan

/-! ### Turns -/

/-- A turn in reading with several cursors, which are numbered in the order of opening. -/
inductive Turn
  | scan (lower upper : Option Bound)
  | next (cursor : Nat)

/-- What a turn is answered. -/
inductive Heard
  | opened (answer : Except Error Unit)
  | moved (cursor : Nat) (answer : Except Error Bool) (place : Place Row)
  /-- There is no such cursor. -/
  | nothing

/-- What has been heard of one cursor. -/
def Heard.of (n : Nat) (heard : List Heard) : List (Except Error Bool × Place Row) :=
  heard.filterMap fun
    | moved m answer place => if m = n then some (answer, place) else none
    | _ => none

namespace Index

variable {ι : Type} [Index ι]

def turn (ix : ι) (cursors : List (Cursor ι)) : Turn → Traced (Heard × List (Cursor ι) × ι)
  | .scan lower upper => do
    match ← scan ix lower upper with
    | (.error e, ix) => return (.opened (.error e), cursors, ix)
    | (.ok c, ix) => return (.opened (.ok ()), cursors ++ [c], ix)
  | .next n =>
    match cursors[n]? with
    | none => pure (.nothing, cursors, ix)
    | some c => do
      let (answer, c, ix) ← next ix c
      return (.moved n answer (place c), cursors.set n c, ix)

/-- What is heard in the turns that are taken one after the other. -/
def session (ix : ι) (cursors : List (Cursor ι)) : List Turn → Traced (List Heard)
  | [] => pure []
  | u :: us => do
    let (heard, cursors, ix) ← turn ix cursors u
    return heard :: (← session ix cursors us)

end Index

/-! ### The shared reader -/

/-- The ranges of the cursors, and the tuples ahead of the reader. -/
structure SharedReader where
  ranges : List (Option Bound × Option Bound) := []
  ahead : List Tuple

namespace SharedReader

variable (o : RowOrder) (width : Nat) (rows : List Tuple)

def turn (s : SharedReader) : Turn → Heard × SharedReader
  | .scan lower upper => (.opened (.ok ()), { ranges := s.ranges ++ [(lower, upper)], ahead := rows })
  | .next n =>
    match s.ranges[n]? with
    | none => (.nothing, s)
    | some (lower, upper) =>
      match Row.first? width (o.inRange lower upper) s.ahead with
      | some (r, ahead) => (.moved n (.ok true) (.on r), { s with ahead })
      | none => (.moved n (.ok false) .exhausted, { s with ahead := rows })

def session (s : SharedReader) : List Turn → List Heard × SharedReader
  | [] => ([], s)
  | u :: us =>
    let (heard, s) := s.turn o width rows u
    let (rest, s) := s.session us
    (heard :: rest, s)

variable {o width rows} {s : SharedReader} {n : Nat} {lower upper : Option Bound}

theorem turn_of_none (hRange : s.ranges[n]? = some (lower, upper))
    (hNone : Row.first? width (o.inRange lower upper) s.ahead = none) :
    s.turn o width rows (.next n) = (.moved n (.ok false) .exhausted, { s with ahead := rows }) := by
  simp only [turn, hRange, hNone]

theorem turn_of_some {r : Row} {ahead : List Tuple} (hRange : s.ranges[n]? = some (lower, upper))
    (hSome : Row.first? width (o.inRange lower upper) s.ahead = some (r, ahead)) :
    s.turn o width rows (.next n) = (.moved n (.ok true) (.on r), { s with ahead }) := by
  simp only [turn, hRange, hSome]

theorem session_cons (u : Turn) (us : List Turn) : s.session o width rows (u :: us)
    = ((s.turn o width rows u).1 :: ((s.turn o width rows u).2.session o width rows us).1,
      ((s.turn o width rows u).2.session o width rows us).2) := rfl

theorem session_append (us vs : List Turn) : s.session o width rows (us ++ vs)
    = ((s.session o width rows us).1 ++ ((s.session o width rows us).2.session o width rows vs).1,
      ((s.session o width rows us).2.session o width rows vs).2) := by
  induction us generalizing s with
  | nil => rfl
  | cons u us ih => rw [List.cons_append, session_cons, session_cons, ih, List.cons_append]

/-- A cursor that is moved alone gives the rows in its range that are ahead. -/
theorem session_lap {found : List Row} (hRange : s.ranges[n]? = some (lower, upper))
    (hFound : o.rowsOf width lower upper s.ahead = found) :
    s.session o width rows (List.replicate (found.length + 1) (.next n))
      = ((ComputedIndex.lap found).map fun (answer, place) => .moved n answer place,
        { s with ahead := rows }) := by
  induction found generalizing s with
  | nil =>
    rw [List.length_nil, List.replicate_succ, session_cons,
      turn_of_none hRange (Row.first?_eq_none_of_filter hFound)]
    rfl
  | cons r found ih =>
    obtain ⟨ahead, hSome, hRest⟩ := Row.exists_first?_of_filter hFound
    have hLap := @ih { s with ahead } hRange hRest
    rw [List.length_cons, List.replicate_succ, session_cons, turn_of_some hRange hSome, hLap]
    rfl

end SharedReader

namespace ComputedIndex

/-- The cursors of the index answer together what the shared reader answers. -/
structure Shares (ix : ComputedIndex) (cursors : List ComputedCursor) (t : Table) (o : RowOrder)
    (rows : List Tuple) (s : SharedReader) : Prop where
  serves : ix.Serves t o rows s.ahead
  ranges_eq : s.ranges = cursors.map fun c => (c.lower, c.upper)
  feed_eq : ∀ c ∈ cursors, c.feed = .shared

namespace Shares

variable {ix : ComputedIndex} {cursors : List ComputedCursor} {t : Table} {o : RowOrder}
  {rows : List Tuple} {s : SharedReader}

/-- A cursor that is moved keeps its range. -/
theorem set (h : ix.Shares cursors t o rows s) {ix' : ComputedIndex} {ahead : List Tuple} {n : Nat}
    {c c' : ComputedCursor} (hCursor : cursors[n]? = some c) (hServes : ix'.Serves t o rows ahead)
    (hRange : (c'.lower, c'.upper) = (c.lower, c.upper)) (hFeed : c'.feed = c.feed) :
    ix'.Shares (cursors.set n c') t o rows { s with ahead } := by
  refine ⟨hServes, ?_, fun d hd => ?_⟩
  · obtain ⟨hn, rfl⟩ := List.getElem?_eq_some_iff.1 hCursor
    rw [List.map_set, hRange, ← List.getElem_map (fun c : ComputedCursor => (c.lower, c.upper)),
      List.set_getElem_self, h.ranges_eq]
    rwa [List.length_map]
  · rcases List.mem_or_eq_of_mem_set hd with hd | rfl
    · exact h.feed_eq d hd
    · rw [hFeed]
      exact h.feed_eq c (List.mem_of_getElem? hCursor)

theorem turn (h : ix.Shares cursors t o rows s) (u : Turn) : ∃ cursors' ix',
    (Index.turn ix cursors u).result = ((s.turn o t.width rows u).1, cursors', ix') ∧
      ix'.Shares cursors' t o rows (s.turn o t.width rows u).2 := by
  cases u with
  | scan lower upper =>
    obtain ⟨ix', hScan, hServes⟩ := h.serves.scan lower upper
    have hOpened : (Index.scan ix lower upper).result = _ := hScan
    refine ⟨cursors ++ [{ feed := .shared, lower, upper }], ix', ?_, hServes, ?_, fun c hc => ?_⟩
    · rw [Index.turn, Traced.result_bind, hOpened]
      rfl
    · rw [List.map_append, ← h.ranges_eq]
      rfl
    · rcases List.mem_append.1 hc with hc | hc
      · exact h.feed_eq c hc
      · rw [List.mem_singleton.1 hc]
  | next n =>
    have hRange : s.ranges[n]? = cursors[n]?.map fun c => (c.lower, c.upper) := by
      rw [h.ranges_eq, List.getElem?_map]
    cases hCursor : cursors[n]? with
    | none =>
      have hTurn : s.turn o t.width rows (.next n) = (.nothing, s) := by
        simp only [SharedReader.turn, hRange, hCursor, Option.map_none]
      rw [Index.turn, hCursor, hTurn]
      exact ⟨cursors, ix, rfl, h⟩
    | some c =>
      rw [hCursor] at hRange
      have hFeed := h.feed_eq c (List.mem_of_getElem? hCursor)
      have hMove : (Index.next ix c).result = (c.next ix).result := rfl
      rw [Index.turn, hCursor]
      cases hFirst : Row.first? t.width (o.inRange c.lower c.upper) s.ahead with
      | none =>
        obtain ⟨ix', hNext, hServes⟩ := h.serves.next_of_none hFeed hFirst
        rw [SharedReader.turn_of_none hRange hFirst, Traced.result_bind, hMove, hNext]
        exact ⟨_, ix', rfl, h.set hCursor hServes rfl rfl⟩
      | some found =>
        obtain ⟨ix', hNext, hServes⟩ := h.serves.next_of_some hFeed hFirst
        rw [SharedReader.turn_of_some hRange hFirst, Traced.result_bind, hMove, hNext]
        exact ⟨_, ix', rfl, h.set hCursor hServes rfl rfl⟩

theorem session (h : ix.Shares cursors t o rows s) (us : List Turn) :
    (Index.session ix cursors us).result = (s.session o t.width rows us).1 := by
  induction us generalizing ix cursors s with
  | nil => rfl
  | cons u us ih =>
    obtain ⟨cursors', ix', hTurn, hShares⟩ := h.turn u
    rw [Index.session, Traced.result_bind, hTurn, Traced.result_bind, ih hShares]
    rfl

end Shares

/-- The cursors of an index over an open working table have one reader between them.  A cursor that is
moved alone, from where the reader is before the first tuple, gives all rows in its range. -/
theorem session_eq_shared {ix : ComputedIndex} {b : Buffer}
    (hSource : ix.source = .working { evaluator := .buffer b }) (hOpen : b.isClosed = false)
    (us : List Turn) :
    let after := ({ ahead := b.ahead } : SharedReader).session ix.order ix.table.width b.rows us
    (Index.session ix [] us).result = after.1 ∧
      ∀ n lower upper, after.2.ranges[n]? = some (lower, upper) → after.2.ahead = b.rows →
        let found := ix.order.rowsOf ix.table.width lower upper b.rows
        (Index.session ix [] (us ++ List.replicate (found.length + 1) (.next n))).result
          = after.1 ++ (lap found).map fun (answer, place) => .moved n answer place := by
  have hShares : ix.Shares [] ix.table ix.order b.rows { ahead := b.ahead } :=
    ⟨serves_of_open hSource hOpen, rfl, fun c hc => absurd hc List.not_mem_nil⟩
  refine ⟨hShares.session us, fun n lower upper hRange hStart => ?_⟩
  intro found
  have hFound : ix.order.rowsOf ix.table.width lower upper _ = found := congrArg _ hStart
  rw [hShares.session, SharedReader.session_append, SharedReader.session_lap hRange hFound]

/-- A recursive index over two numbers. -/
def sharedNumbers : ComputedIndex where
  name := "all"
  table :=
    { name := "nums", kind := .recursive, columns := [{ name := "n", type := .int64 }],
      indexes := [{ name := "all", table := "nums", columns := [⟨"n", .ascending⟩], type := .query }] }
  order := { columns := [(0, .ascending)], nulls := .low }
  source := .working { evaluator := .buffer { width := 1, rows := [[.int64 1], [.int64 2]] } }

/-- Two cursors are opened and moved in turn. -/
def interleavedTurns : List Turn :=
  [.scan none none, .scan none none, .next 0, .next 1, .next 0]

theorem sharedNumbers_session : ∃ t, Table.declare "nums"
      [.kind .recursive, .column "n" .int64, .queryIndex "all" [⟨"n", .ascending⟩]] = .ok t ∧
    create t "all" sharedNumbers.source {} = .ok sharedNumbers ∧
    (Index.session sharedNumbers [] interleavedTurns).result
      = [.opened (.ok ()), .opened (.ok ()), .moved 0 (.ok true) (.on (Row.dummy [.int64 1])),
        .moved 1 (.ok true) (.on (Row.dummy [.int64 2])), .moved 0 (.ok false) .exhausted] ∧
    (Index.session sharedNumbers [] (interleavedTurns ++ [.next 1, .next 1, .next 1])).result
      = [.opened (.ok ()), .opened (.ok ()), .moved 0 (.ok true) (.on (Row.dummy [.int64 1])),
        .moved 1 (.ok true) (.on (Row.dummy [.int64 2])), .moved 0 (.ok false) .exhausted,
        .moved 1 (.ok true) (.on (Row.dummy [.int64 1])),
        .moved 1 (.ok true) (.on (Row.dummy [.int64 2])), .moved 1 (.ok false) .exhausted] := by
  obtain ⟨hShared, hAlone⟩ := @session_eq_shared sharedNumbers _ rfl rfl interleavedTurns
  exact ⟨_, rfl, rfl, hShared, hAlone 1 none none rfl rfl⟩

/-- The first cursor has not come to the second row, which the other has taken. -/
theorem sharedNumbers_interfere :
    let heard := (Index.session sharedNumbers [] interleavedTurns).result
    Heard.of 0 heard = [(.ok true, .on (Row.dummy [.int64 1])), (.ok false, .exhausted)] ∧
      Heard.of 0 heard ≠ lap (sharedNumbers.order.rowsOf 1 none none [[.int64 1], [.int64 2]]) := by
  have hShares : sharedNumbers.Shares [] sharedNumbers.table sharedNumbers.order
      [[.int64 1], [.int64 2]] { ahead := [[.int64 1], [.int64 2]] } :=
    ⟨@serves_of_open sharedNumbers _ rfl rfl, rfl, fun c hc => absurd hc List.not_mem_nil⟩
  rw [hShares.session]
  exact ⟨rfl, fun h => absurd (congrArg List.length h) (by decide)⟩

end ComputedIndex

end IndexScan

import IndexScan.Proofs.Index.Computed
import IndexScan.Proofs.Index.Ledger

/-!
# Scans of a recursive index start over

A recursive index keeps nothing of a scan but how far the working table has been read, and a scan
begins by forgetting that.  So whatever has been asked of the index and its working table, an index
that `Serves` an open table goes on to do so (`Serves.exists_apply`), with the rows that have been put
there.  A scan then gives these rows, and the same cursor gives them lap after lap (`Serves.laps`).
Only the index itself closes the table, and after that it refuses everything (`Refuses`).
-/

namespace IndexScan

namespace ComputedIndex

/-! ### What keeps a working table open -/

/-- Changes the buffer that a recursive index reads. -/
def editWorking (ix : ComputedIndex) (f : Buffer → Buffer) : ComputedIndex :=
  ix.modifyWorking fun w =>
    match w.evaluator with
    | .buffer b => { w with evaluator := .buffer (f b) }
    | .playback _ => w

/-- What may be asked of a recursive index and of its working table. -/
inductive Request
  | visit (lower upper : Option Bound) (moves : List Move)
  | push (t : Tuple)
  | replace (ts : List Tuple)
  | setQuery (q : Query)
  | invalidate (message : String)

/-- The index after a request. -/
def apply (ix : ComputedIndex) : Request → ComputedIndex
  | .visit lower upper moves => (Index.visit ix lower upper moves).result
  | .push t => ix.editWorking (·.push t)
  | .replace ts => ix.editWorking (·.replace ts)
  | .setQuery q => (ix.setQuery q).2
  | .invalidate message => (ix.invalidate message).2

def after (ix : ComputedIndex) (requests : List Request) : ComputedIndex := requests.foldl apply ix

/-- The tuples that requests leave in the working table. -/
def Request.record (rows : List Tuple) : Request → List Tuple
  | push t => rows ++ [t]
  | replace ts => ts
  | _ => rows

def contents (rows : List Tuple) (requests : List Request) : List Tuple :=
  requests.foldl Request.record rows

variable {ix : ComputedIndex} {t : Table} {o : RowOrder} {rows ahead : List Tuple}

/-- A recursive index has no query to be replaced. -/
theorem withSource_of_isRecursive (h : ix.isRecursive = true) (source : TupleSource) :
    ix.withSource source
      = (.error (.unsupported s!"recursive index {ix.name} has no compiled query"), ix) := by
  rw [withSource, if_pos h]

namespace Serves

/-- A change that does not close the buffer. -/
theorem editWorking (h : ix.Serves t o rows ahead) {f : Buffer → Buffer} {rows' : List Tuple}
    (hOpen : ∀ b : Buffer, b.isClosed = false → (f b).isClosed = false)
    (hRows : ∀ b : Buffer, b.rows = rows → (f b).rows = rows') :
    ∃ ahead', (ix.editWorking f).Serves t o rows' ahead' := by
  obtain ⟨b, hSource, hb, hContent⟩ := h.exists_buffer
  rw [ComputedIndex.editWorking, modifyWorking, hSource, ← hRows b hContent]
  exact ⟨_, h.withBuffer (hOpen b hb)⟩

/-- However a cursor is moved, the table stays as it is but for how far it is read. -/
theorem journey {c : ComputedCursor} (h : ix.Serves t o rows ahead) (hFeed : c.feed = .shared)
    (ms : List Move) : ∃ answers c' ix' ahead',
      (Index.journey ix c ms).result = (answers, c', ix') ∧ ix'.Serves t o rows ahead' := by
  induction ms generalizing ix c ahead with
  | nil => exact ⟨[], c, ix, ahead, rfl, h⟩
  | cons m ms ih =>
    cases m with
    | previous =>
      obtain ⟨answers, c', ix', ahead', hJourney, hServes⟩ := ih h hFeed
      exact ⟨_, c', ix', ahead', Index.result_journey_cons rfl hJourney, hServes⟩
    | next =>
      have hMove : (Index.move ix c .next).result = (c.next ix).result := rfl
      cases hFirst : Row.first? t.width (o.inRange c.lower c.upper) ahead with
      | none =>
        obtain ⟨ix₁, hNext, hServes₁⟩ := h.next_of_none hFeed hFirst
        obtain ⟨answers, c', ix', ahead', hJourney, hServes⟩ :=
          ih (c := { c with place := .exhausted }) hServes₁ hFeed
        exact ⟨_, c', ix', ahead', Index.result_journey_cons (hMove.trans hNext) hJourney, hServes⟩
      | some found =>
        obtain ⟨ix₁, hNext, hServes₁⟩ := h.next_of_some hFeed hFirst
        obtain ⟨answers, c', ix', ahead', hJourney, hServes⟩ :=
          ih (c := { c with place := .on found.1 }) hServes₁ hFeed
        exact ⟨_, c', ix', ahead', Index.result_journey_cons (hMove.trans hNext) hJourney, hServes⟩

theorem visit (h : ix.Serves t o rows ahead) (lower upper : Option Bound) (ms : List Move) :
    ∃ ahead', (Index.visit ix lower upper ms).result.Serves t o rows ahead' := by
  have hScan : (Index.scan ix lower upper).result = (ix.scan lower upper).result := rfl
  obtain ⟨ix₁, hOpened, hServes₁⟩ := h.scan lower upper
  obtain ⟨answers, c, ix', ahead', hJourney, hServes⟩ :=
    hServes₁.journey (c := { feed := .shared, lower, upper }) rfl ms
  refine ⟨ahead', ?_⟩
  rw [Index.visit, Traced.result_bind, hScan, hOpened]
  simp only [Traced.result_bind, Index.travel_eq_journey, hJourney]
  exact hServes

theorem exists_apply (h : ix.Serves t o rows ahead) (r : Request) :
    ∃ ahead', (ix.apply r).Serves t o (r.record rows) ahead' := by
  cases r with
  | visit lower upper moves => exact h.visit lower upper moves
  | push u =>
    exact h.editWorking (fun _ hb => hb) fun b hb => congrArg (· ++ [u]) hb
  | replace us =>
    refine h.editWorking (fun b hb => ?_) fun _ _ => rfl
    rw [Buffer.replace, hb]
    rfl
  | setQuery q =>
    rw [apply, setQuery, withSource_of_isRecursive h.isRecursive]
    exact ⟨ahead, h⟩
  | invalidate message =>
    rw [apply, invalidate, withSource_of_isRecursive h.isRecursive]
    exact ⟨ahead, h⟩

theorem exists_after (h : ix.Serves t o rows ahead) (requests : List Request) :
    ∃ ahead', (ix.after requests).Serves t o (contents rows requests) ahead' := by
  induction requests generalizing ix rows ahead with
  | nil => exact ⟨ahead, h⟩
  | cons r requests ih =>
    obtain ⟨ahead', hApply⟩ := h.exists_apply r
    exact ih hApply

/-! ### Laps -/

end Serves

/-- What a cursor answers that goes through rows and comes to the end. -/
def lap (found : List Row) : List (Except Error Bool × Place Row) :=
  found.map (fun r => (.ok true, .on r)) ++ [(.ok false, .exhausted)]

namespace Serves

theorem journey_lap {c : ComputedCursor} {found : List Row} (h : ix.Serves t o rows ahead)
    (hFeed : c.feed = .shared) (hFound : o.rowsOf t.width c.lower c.upper ahead = found) :
    ∃ ix', (Index.journey ix c (List.replicate (found.length + 1) .next)).result
        = (lap found, { c with place := .exhausted }, ix') ∧ ix'.Serves t o rows rows := by
  induction found generalizing ix c ahead with
  | nil =>
    obtain ⟨ix', hNext, hServes⟩ := h.next_end hFeed hFound
    have hMove : (Index.move ix c .next).result = _ := hNext
    exact ⟨ix', Index.result_journey_cons hMove rfl, hServes⟩
  | cons r found ih =>
    obtain ⟨ix₁, ahead₁, hNext, hServes₁, hRest⟩ := h.next_row hFeed hFound
    obtain ⟨ix', hJourney, hServes⟩ := ih (c := { c with place := .on r }) hServes₁ hFeed hRest
    have hMove : (Index.move ix c .next).result = _ := hNext
    exact ⟨ix', Index.result_journey_cons hMove hJourney, hServes⟩

/-- A cursor that has come to the end goes through all rows again. -/
theorem laps {c : ComputedCursor} (h : ix.Serves t o rows rows) (hFeed : c.feed = .shared)
    {found : List Row} (hFound : o.rowsOf t.width c.lower c.upper rows = found) (n : Nat) :
    ∃ c' ix', (Index.journey ix c (List.replicate (n * (found.length + 1)) .next)).result
        = ((List.replicate n (lap found)).flatten, c', ix') ∧ ix'.Serves t o rows rows := by
  induction n generalizing ix c with
  | zero =>
    rw [Nat.zero_mul]
    exact ⟨c, ix, rfl, h⟩
  | succ n ih =>
    obtain ⟨ix₁, hLap, hServes₁⟩ := h.journey_lap hFeed hFound
    obtain ⟨c', ix', hRest, hServes⟩ := ih (c := { c with place := .exhausted }) hServes₁ hFeed hFound
    refine ⟨c', ix', ?_, hServes⟩
    rw [Nat.succ_mul, Nat.add_comm, List.replicate_add]
    exact Index.result_journey_append hLap hRest

end Serves

/-! ### What a recursive index offers -/

/-- A recursive index has no query that could be replaced. -/
structure HasNoQuery (ix : ComputedIndex) : Prop where
  setQuery_eq : ∀ q, ix.setQuery q
    = (.error (.unsupported s!"recursive index {ix.name} has no compiled query"), ix)
  invalidate_eq : ∀ message, ix.invalidate message
    = (.error (.unsupported s!"recursive index {ix.name} has no compiled query"), ix)

theorem hasNoQuery (h : ix.isRecursive = true) : ix.HasNoQuery :=
  ⟨fun _ => withSource_of_isRecursive h _, fun _ => withSource_of_isRecursive h _⟩

/-- The index reads an open working table, which holds the given tuples. -/
def IsOpen (ix : ComputedIndex) (rows : List Tuple) : Prop :=
  ∃ b, ix.source = .working { evaluator := .buffer b } ∧ b.isClosed = false ∧ b.rows = rows

/-- The index has given up its working table, which is closed. -/
def IsReleased (ix : ComputedIndex) : Prop :=
  ∃ b, ix.source = .released { evaluator := .buffer b } ∧ b.isClosed = true

/-- A scan of an open index gives the rows in range any number of times, and leaves the index open. -/
structure Restarts (ix : ComputedIndex) (t : Table) (o : RowOrder) (rows : List Tuple) : Prop
    extends HasNoQuery ix where
  isOpen : ix.IsOpen rows
  laps : ∀ lower upper, ∃ c ix', (Index.scan ix lower upper).result = (.ok c, ix') ∧ ∀ n, ∃ c' ix'',
    (Index.journey ix' c
        (List.replicate (n * ((o.rowsOf t.width lower upper rows).length + 1)) .next)).result
      = ((List.replicate n (lap (o.rowsOf t.width lower upper rows))).flatten, c', ix'') ∧
    ix''.IsOpen rows

/-- An index that has given up its working table refuses everything. -/
structure Refuses (ix : ComputedIndex) : Prop extends HasNoQuery ix where
  isReleased : ix.IsReleased
  scan_eq : ∀ lower upper, Index.scan ix lower upper
    = pure (.error (.internal s!"recursive index {ix.name} is closed"), ix)
  close_eq : ix.close = pure ix

theorem Serves.restarts (h : ix.Serves t o rows ahead) : ix.Restarts t o rows where
  toHasNoQuery := hasNoQuery h.isRecursive
  isOpen := h.exists_buffer
  laps lower upper := by
    obtain ⟨ix', hScan, hServes⟩ := h.scan lower upper
    refine ⟨_, ix', hScan, fun n => ?_⟩
    obtain ⟨c', ix'', hLaps, hServes'⟩ :=
      hServes.laps (c := { feed := .shared, lower, upper }) rfl rfl n
    exact ⟨c', ix'', hLaps, hServes'.exists_buffer⟩

/-- The index closes the table when it gives it up. -/
theorem Serves.isReleased_close (h : ix.Serves t o rows ahead) : ix.close.result.IsReleased := by
  obtain ⟨b, hSource, -, -⟩ := h.exists_buffer
  refine ⟨b.close, ?_, rfl⟩
  rw [close, hSource]
  rfl

namespace IsReleased

theorem refuses (h : ix.IsReleased) : ix.Refuses := by
  obtain ⟨b, hSource, hClosed⟩ := h
  refine ⟨hasNoQuery (by rw [isRecursive, hSource]), ⟨b, hSource, hClosed⟩, fun lower upper => ?_, ?_⟩
  · have hScan : Index.scan ix lower upper = ix.scan lower upper := rfl
    rw [hScan, ComputedIndex.scan, hSource]
  · rw [close, hSource]

theorem editWorking (h : ix.IsReleased) {f : Buffer → Buffer}
    (hClosed : ∀ b : Buffer, b.isClosed = true → (f b).isClosed = true) :
    (ix.editWorking f).IsReleased := by
  obtain ⟨b, hSource, hb⟩ := h
  refine ⟨f b, ?_, hClosed b hb⟩
  rw [ComputedIndex.editWorking, modifyWorking, hSource]

theorem apply (h : ix.IsReleased) (r : Request) : (ix.apply r).IsReleased := by
  cases r with
  | visit lower upper moves =>
    rw [ComputedIndex.apply, Index.visit, h.refuses.scan_eq]
    exact h
  | push t => exact h.editWorking fun _ hb => hb
  | replace ts =>
    refine h.editWorking fun b hb => ?_
    rw [Buffer.replace, hb]
    rfl
  | setQuery q =>
    rw [ComputedIndex.apply, h.refuses.setQuery_eq]
    exact h
  | invalidate message =>
    rw [ComputedIndex.apply, h.refuses.invalidate_eq]
    exact h

theorem after (h : ix.IsReleased) (requests : List Request) : (ix.after requests).IsReleased := by
  induction requests generalizing ix with
  | nil => exact h
  | cons r requests ih => exact ih (h.apply r)

end IsReleased

/-- Whatever has been asked of an index over an open working table, its scans restart.  When it is
closed it closes the table, and whatever is asked of it afterwards, it refuses to be scanned. -/
theorem scans_restart {ix : ComputedIndex} {b : Buffer}
    (hSource : ix.source = .working { evaluator := .buffer b }) (hOpen : b.isClosed = false)
    (before later : List Request) :
    (ix.after before).Restarts ix.table ix.order (contents b.rows before) ∧
      ((ix.after before).close.result.after later).Refuses := by
  obtain ⟨ahead, hServes⟩ := (serves_of_open hSource hOpen).exists_after before
  exact ⟨hServes.restarts, (hServes.isReleased_close.after later).refuses⟩

/-- One scan is left behind in the middle, and one is read past its end. -/
def unreadRequests : List Request :=
  [.visit none none [.next], .replace [[.int64 4], [.int64 6, .int64 7]],
    .visit (some ⟨[some (.int64 5)]⟩) none [.next, .previous, .next, .next], .push [.int64 5],
    .invalidate "", .setQuery (.values ⟨1, [], false⟩)]

theorem scans_restart_of_unread : ∃ t ix, Table.declare "nums" [.kind .recursive,
      .column "n" .int64, .queryIndex "all" [⟨"n", .ascending⟩]] = .ok t ∧
    create t "all" (.working { evaluator := .buffer { width := 1, rows := [[.int64 1], []] } }) {}
      = .ok ix ∧
    (ix.after unreadRequests).Restarts t ix.order [[.int64 4], [.int64 6, .int64 7], [.int64 5]] ∧
    ((ix.after unreadRequests).close.result.after unreadRequests).Refuses := by
  obtain ⟨hRestarts, hRefuses⟩ := @scans_restart
    { name := "all", table := _, order := _,
      source := .working { evaluator := .buffer { width := 1, rows := [[.int64 1], []] } } }
    _ rfl rfl unreadRequests unreadRequests
  exact ⟨_, _, rfl, rfl, hRestarts, hRefuses⟩

end ComputedIndex

end IndexScan

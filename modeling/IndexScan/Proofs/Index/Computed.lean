import IndexScan.Index.Computed
import IndexScan.Proofs.Evaluation.Delivery
import IndexScan.Proofs.Schema

/-!
# Scans of a computed index

A scan passes over the tuples whose rows are out of range, so what it gives of the tuples that an
evaluator delivers is `RowOrder.rowsOf`.  A plain cursor reads an evaluator of its own to the end
(`ComputedIndex.rows_eq`).  All cursors of a recursive index read one working table, and what the
next move of any of them gives depends on the tuples still ahead there (`Serves.next_row`,
`Serves.next_end`).
-/

namespace IndexScan

/-- The rows in range that a scan makes of tuples. -/
def RowOrder.rowsOf (o : RowOrder) (width : Nat) (lower upper : Option Bound) (ts : List Tuple) :
    List Row :=
  (ts.map (Row.ofTuple width)).filter (o.inRange lower upper)

theorem RowOrder.rowsOf_none (o : RowOrder) (width : Nat) (ts : List Tuple) :
    o.rowsOf width none none ts = ts.map (Row.ofTuple width) :=
  List.filter_eq_self.2 fun _ _ => rfl

namespace ComputedIndex

section

variable {t : Table} {name : String} {d : IndexDef} {o : RowOrder} {source : TupleSource}
  {settings : Settings}

theorem create_eq (hIndex : t.index? name = some d) (hType : d.type = .query)
    (hOrder : RowOrder.ofIndex t d settings.nulls = .ok o) :
    create t name source settings = .ok { name, table := t, order := o, source } := by
  rw [create, Table.requireIndex, hIndex, ok_bind, if_neg (by simp [hType]), hOrder]
  rfl

theorem exists_of_create {ix : ComputedIndex} (h : create t name source settings = .ok ix) :
    ∃ d o, t.index? name = some d ∧ d.type = .query ∧
      RowOrder.ofIndex t d settings.nulls = .ok o := by
  obtain ⟨d, hIndex, h⟩ := exists_of_bind_eq_ok h
  have hFound : t.index? name = some d := by
    rw [Table.requireIndex] at hIndex
    split at hIndex
    · next d' h' =>
      cases hIndex
      exact h'
    · cases hIndex
  by_cases hType : d.type = .query
  · rw [if_neg (by simp [hType])] at h
    obtain ⟨o, hOrder, -⟩ := exists_of_bind_eq_ok h
    exact ⟨d, o, hFound, hType, hOrder⟩
  · rw [if_pos hType] at h
    cases h

end

end ComputedIndex

namespace ComputedCursor

variable {ix : ComputedIndex} {c : ComputedCursor} {e : Evaluator}

theorem next_eq (hMay : (c.place.isExhausted && !ix.isRecursive) = false)
    (hReads : c.evaluator ix = .ok e) :
    c.next ix = match e.nextRow ix.table.width (ix.order.inRange c.lower c.upper) with
      | (.error err, e) => pure (.error err, c.putBack ix e)
      | (.ok (some r), e) =>
        let (c, ix) := c.putBack ix e
        pure (.ok true, { c with place := .on r }, { ix with stats := ix.stats.recordRow })
      | (.ok none, e) => do
        let (result, e) ← c.finish e
        let (c, ix) := c.putBack ix e
        return (result.map fun () => false, { c with place := .exhausted }, ix) := by
  rw [next, hMay, hReads]
  rfl

/-! ### Plain cursors -/

section

variable {ts : List Tuple} {outcome : Except Error Unit} {last : Evaluator}

/-- At the end the cursor closes its evaluator. -/
theorem next_owned_end (hPlace : c.place.isExhausted = false) (hFeed : c.feed = .owned e)
    (h : e.Delivers ts (.ok ()) last)
    (hNone : ix.order.rowsOf ix.table.width c.lower c.upper ts = []) :
    c.next ix = ⟨(.ok false, { c with feed := .owned last.close.result, place := .exhausted }, ix),
      last.close.events⟩ := by
  have hMay : (c.place.isExhausted && !ix.isRecursive) = false := by rw [hPlace, Bool.false_and]
  have hReads : c.evaluator ix = .ok e := by rw [evaluator, hFeed]
  rw [next_eq hMay hReads, h.nextRow_eq_none hNone]
  simp only [Except.map, finish, putBack, hFeed]
  refine Traced.ext rfl ?_
  simp only [Traced.events_bind, Traced.events_pure, List.append_nil]

/-- A failure leaves the cursor where it is. -/
theorem next_owned_failure {err : Error} (hPlace : c.place.isExhausted = false)
    (hFeed : c.feed = .owned e) (h : e.Delivers ts (.error err) last)
    (hNone : ix.order.rowsOf ix.table.width c.lower c.upper ts = []) :
    c.next ix = pure (.error err, { c with feed := .owned last }, ix) := by
  have hMay : (c.place.isExhausted && !ix.isRecursive) = false := by rw [hPlace, Bool.false_and]
  have hReads : c.evaluator ix = .ok e := by rw [evaluator, hFeed]
  rw [next_eq hMay hReads, h.nextRow_eq_none hNone]
  simp only [Except.map, putBack, hFeed]

theorem next_owned_row {r : Row} {rows : List Row} (hPlace : c.place.isExhausted = false)
    (hFeed : c.feed = .owned e) (h : e.Delivers ts outcome last)
    (hRows : ix.order.rowsOf ix.table.width c.lower c.upper ts = r :: rows) :
    ∃ e' rest, c.next ix = pure (.ok true, { c with feed := .owned e', place := .on r },
        { ix with stats := ix.stats.recordRow }) ∧ e'.Delivers rest outcome last ∧
      ix.order.rowsOf ix.table.width c.lower c.upper rest = rows := by
  have hMay : (c.place.isExhausted && !ix.isRecursive) = false := by rw [hPlace, Bool.false_and]
  have hReads : c.evaluator ix = .ok e := by rw [evaluator, hFeed]
  obtain ⟨e', rest, hNext, hDelivers, hRest⟩ := h.exists_nextRow hRows
  refine ⟨e', rest, ?_, hDelivers, hRest⟩
  rw [next_eq hMay hReads, hNext]
  simp only [putBack, hFeed]

theorem readOn_owned (hPlace : c.place.isExhausted = false) (hFeed : c.feed = .owned e)
    (h : e.Delivers ts outcome last) {limit : Nat}
    (hLimit : (ix.order.rowsOf ix.table.width c.lower c.upper ts).length < limit) :
    (Index.readOn limit ix c).result.1
      = outcome.map fun _ => ix.order.rowsOf ix.table.width c.lower c.upper ts := by
  induction limit generalizing ix c e ts with
  | zero => omega
  | succ limit ih =>
    have hNext : Index.next ix c = c.next ix := rfl
    cases hRows : ix.order.rowsOf ix.table.width c.lower c.upper ts with
    | nil =>
      cases outcome with
      | error err =>
        simp only [Index.readOn, Traced.result_bind, hNext, next_owned_failure hPlace hFeed h hRows]
        rfl
      | ok _ =>
        simp only [Index.readOn, Traced.result_bind, hNext, next_owned_end hPlace hFeed h hRows]
        rfl
    | cons r rows =>
      obtain ⟨e', rest, hStep, hDelivers, hRest⟩ := next_owned_row hPlace hFeed h hRows
      rw [hRows] at hLimit
      have hMore : (Index.readOn limit { ix with stats := ix.stats.recordRow }
          ({ c with feed := .owned e', place := .on r } : ComputedCursor)).result.1
            = outcome.map fun _ => ix.order.rowsOf ix.table.width c.lower c.upper rest :=
        ih rfl rfl hDelivers (by rw [hRest]; exact Nat.lt_of_succ_lt_succ hLimit)
      rw [hRest] at hMore
      simp only [Index.readOn, Traced.result_bind, hNext, hStep, Traced.result_pure, hMore]
      cases outcome <;> rfl

end

end ComputedCursor

/-! ### Scans of a plain index -/

namespace ComputedIndex

section

variable {ix : ComputedIndex}

theorem result_scan_query {q : Query} (hSource : ix.source = .query q)
    (lower upper : Option Bound) : (Index.scan ix lower upper).result = match q.execute.result with
      | .error e => (.error e, ix)
      | .ok e => (.ok { feed := .owned e, lower, upper }, scan.counted ix) := by
  have hScan : Index.scan ix lower upper = ix.scan lower upper := rfl
  simp only [hScan, scan, hSource, Traced.result_bind]
  cases q.execute.result <;> rfl

theorem result_scan_broken {message : String} (hSource : ix.source = .broken message)
    (lower upper : Option Bound) : (Index.scan ix lower upper).result
      = (.error (.compilation ix.table.name message), ix) := by
  have hScan : Index.scan ix lower upper = ix.scan lower upper := rfl
  rw [hScan, scan, hSource]
  rfl

/-- A scan of a plain index gives the rows in range of what its query answers. -/
theorem rows_eq {q : Query} (hSource : ix.source = .query q) (lower upper : Option Bound) :
    (Index.rows ix lower upper).result.1
      = q.answer.map (ix.order.rowsOf ix.table.width lower upper) := by
  rw [Index.rows, Traced.result_bind, result_scan_query hSource]
  rcases q.execute_cases with ⟨e, hExecute, hAnswer⟩ | ⟨e, last, hExecute, -, hDelivers, hAnswer⟩
  · rw [hExecute, hAnswer]
    rfl
  · have hLength : (ix.order.rowsOf ix.table.width lower upper q.delivery.1).length
        < e.remaining + 1 := by
      have hFilter := List.length_filter_le (ix.order.inRange lower upper)
        (q.delivery.1.map (Row.ofTuple ix.table.width))
      rw [List.length_map] at hFilter
      exact Nat.lt_succ_of_le (Nat.le_trans hFilter hDelivers.length_le)
    have hRead : (Index.readOn (e.remaining + 1) (scan.counted ix)
        ({ feed := .owned e, lower, upper } : ComputedCursor)).result.1
          = q.delivery.2.map fun _ => ix.order.rowsOf ix.table.width lower upper q.delivery.1 :=
      ComputedCursor.readOn_owned rfl rfl hDelivers hLength
    rw [hExecute, hAnswer]
    refine hRead.trans ?_
    cases q.delivery.2 <;> rfl

end

end ComputedIndex

/-! ### The working table -/

namespace ComputedIndex

/-- The index reads a working table with the given rows, of which those `ahead` are to come. -/
structure Serves (ix : ComputedIndex) (t : Table) (o : RowOrder) (rows ahead : List Tuple) :
    Prop where
  table : ix.table = t
  order : ix.order = o
  exists_source : ∃ e last width, ix.source = .working { evaluator := e } ∧
    e.rewound = .buffer { width, rows } ∧ e.Delivers ahead (.ok ()) last

variable {ix : ComputedIndex} {t : Table} {o : RowOrder} {rows ahead : List Tuple}

/-- A working table that is open can be read on, wherever its reader is. -/
theorem serves_of_open {b : Buffer} (hSource : ix.source = .working { evaluator := .buffer b })
    (hOpen : b.isClosed = false) : ix.Serves ix.table ix.order b.rows b.ahead :=
  ⟨rfl, rfl, _, _, b.width, hSource, rfl, Evaluator.delivers_ahead hOpen⟩

theorem serves_create {name : String} {width : Nat} : ComputedIndex.Serves
    { name, table := t, order := o, source := .working { evaluator := .buffer { width, rows } } }
    t o rows rows :=
  @serves_of_open _ { width, rows } rfl rfl

namespace Serves

theorem isRecursive (h : ix.Serves t o rows ahead) : ix.isRecursive = true := by
  obtain ⟨e, last, width, hSource, -⟩ := h.exists_source
  rw [ComputedIndex.isRecursive, hSource]

theorem exists_buffer (h : ix.Serves t o rows ahead) : ∃ b,
    ix.source = .working { evaluator := .buffer b } ∧ b.isClosed = false ∧ b.rows = rows := by
  obtain ⟨e, last, width, hSource, hRewound, hDelivers⟩ := h.exists_source
  cases e with
  | playback p => cases hRewound
  | buffer b =>
    cases hRewound
    exact ⟨b, hSource, hDelivers.isClosed_eq.1, rfl⟩

/-- Any open buffer may take the place of the working table. -/
theorem withBuffer (h : ix.Serves t o rows ahead) {b : Buffer} (hOpen : b.isClosed = false) :
    ({ ix with source := .working { evaluator := .buffer b } } : ComputedIndex).Serves t o b.rows
      b.ahead :=
  ⟨h.table, h.order, _, _, b.width, rfl, rfl, Evaluator.delivers_ahead hOpen⟩

/-- A scan starts at the first tuple, wherever others have left off. -/
theorem scan (h : ix.Serves t o rows ahead) (lower upper : Option Bound) :
    ∃ ix', (ix.scan lower upper).result = (.ok { feed := .shared, lower, upper }, ix') ∧
      ix'.Serves t o rows rows := by
  obtain ⟨e, last, width, hSource, hRewound, hDelivers⟩ := h.exists_source
  have hReset := Evaluator.reset_eq hDelivers.isClosed_eq.1 hRewound
  simp only [ComputedIndex.scan, hSource, Bool.false_eq_true, if_false, Traced.result_bind, hReset]
  exact ⟨_, rfl, h.table, h.order, _, _, width, rfl, rfl, Evaluator.delivers_buffer width rows⟩

section

variable {c : ComputedCursor} (h : ix.Serves t o rows ahead) (hFeed : c.feed = .shared)

include h hFeed

/-- At the end the working table is rewound. -/
theorem next_of_none
    (hNone : Row.first? t.width (o.inRange c.lower c.upper) ahead = none) :
    ∃ ix', (c.next ix).result = (.ok false, { c with place := .exhausted }, ix') ∧
      ix'.Serves t o rows rows := by
  obtain ⟨e, last, width, hSource, hRewound, hDelivers⟩ := h.exists_source
  have hMay : (c.place.isExhausted && !ix.isRecursive) = false := by simp [h.isRecursive]
  have hReads : c.evaluator ix = .ok e := by
    rw [ComputedCursor.evaluator, hFeed, working?, hSource]
  have hReset := Evaluator.reset_eq hDelivers.isClosed_eq.2 (hDelivers.rewound_eq.trans hRewound)
  rw [ComputedCursor.next_eq hMay hReads, h.table, h.order, hDelivers.nextRow_of_none hNone]
  simp only [Except.map, ComputedCursor.finish, ComputedCursor.putBack, modifyWorking, hFeed,
    hSource, Traced.result_bind, hReset]
  exact ⟨_, rfl, h.table, h.order, _, _, width, rfl, rfl, Evaluator.delivers_buffer width rows⟩

theorem next_of_some {r : Row} {rest : List Tuple}
    (hSome : Row.first? t.width (o.inRange c.lower c.upper) ahead = some (r, rest)) :
    ∃ ix', (c.next ix).result = (.ok true, { c with place := .on r }, ix') ∧
      ix'.Serves t o rows rest := by
  obtain ⟨e, last, width, hSource, hRewound, hDelivers⟩ := h.exists_source
  have hMay : (c.place.isExhausted && !ix.isRecursive) = false := by simp [h.isRecursive]
  have hReads : c.evaluator ix = .ok e := by
    rw [ComputedCursor.evaluator, hFeed, working?, hSource]
  obtain ⟨e', hNext, hDelivers'⟩ := hDelivers.exists_nextRow_of_some hSome
  have hRewound' : e'.rewound = .buffer { width, rows } := by
    rw [← hDelivers'.rewound_eq, hDelivers.rewound_eq, hRewound]
  rw [ComputedCursor.next_eq hMay hReads, h.table, h.order, hNext]
  simp only [ComputedCursor.putBack, modifyWorking, hFeed, hSource, Traced.result_pure]
  exact ⟨_, rfl, h.table, h.order, e', last, width, rfl, hRewound', hDelivers'⟩

theorem next_end (hNone : o.rowsOf t.width c.lower c.upper ahead = []) :
    ∃ ix', (c.next ix).result = (.ok false, { c with place := .exhausted }, ix') ∧
      ix'.Serves t o rows rows :=
  h.next_of_none hFeed (Row.first?_eq_none_of_filter hNone)

theorem next_row {r : Row} {rest : List Row}
    (hRows : o.rowsOf t.width c.lower c.upper ahead = r :: rest) :
    ∃ ix' ahead', (c.next ix).result = (.ok true, { c with place := .on r }, ix') ∧
      ix'.Serves t o rows ahead' ∧ o.rowsOf t.width c.lower c.upper ahead' = rest := by
  obtain ⟨ahead', hSome, hRest⟩ := Row.exists_first?_of_filter hRows
  obtain ⟨ix', hNext, hServes⟩ := h.next_of_some hFeed hSome
  exact ⟨ix', ahead', hNext, hServes, hRest⟩

end

end Serves

end ComputedIndex

end IndexScan

import IndexScan.Proofs.Index.Computed
import IndexScan.Recursion.ScanProgram

/-!
# What programs read of the working table

A program is watched by making it note what it does with the index (`ScanProgram.noting`), which
does not change what it does.  All its cursors read the one working table, so a reading is told
from the tuples that are ahead there at the moment.  A scan puts the reader back to the first tuple,
and from then on only a reading with another cursor can take tuples away from it: a scan that is
read to the end with nothing else in between gives all rows in range, whatever was left unread
before (`Accesses.Exact`).
-/

namespace IndexScan

/-- What a program does with the index, with what it is answered. -/
inductive Access
  | opened (lower upper : Option Bound) (cursor : Except Error Nat)
  /-- Reading on while there is to be `more`. -/
  | read (cursor : Nat) (more : List Row → Bool) (rows : List Row) (stop : Except Error Bool)

abbrev Accesses := List Access

namespace Accesses

/-- The rows that are read with a cursor until it meets the end, if that comes next. -/
def readToEnd? (n : Nat) : Accesses → Option (List Row)
  | .read m _ rows (.ok left) :: rest =>
    if m ≠ n then none
    else if left then (readToEnd? n rest).map (rows ++ ·)
    else some rows
  | _ => none

theorem readToEnd?_read_self (n : Nat) (more : List Row → Bool) (rows : List Row) (left : Bool)
    (rest : Accesses) : readToEnd? n (.read n more rows (.ok left) :: rest)
      = if left then (readToEnd? n rest).map (rows ++ ·) else some rows := by
  rw [readToEnd?, if_neg (not_not_intro rfl)]

theorem readToEnd?_read_of_ne {m n : Nat} (h : m ≠ n) (more : List Row → Bool) (rows : List Row)
    (left : Bool) (rest : Accesses) : readToEnd? n (.read m more rows (.ok left) :: rest) = none := by
  rw [readToEnd?, if_pos h]

/-- Nothing is refused.  A scan that is read to the end before anything else is done gives its
rows, and a reading that stops before the end has as many rows as it was to have. -/
inductive Exact (rowsOf : Option Bound → Option Bound → List Row) : Accesses → Prop
  | nil : Exact rowsOf []
  | opened {lower upper : Option Bound} {n : Nat} {rest : Accesses}
      (h : ∀ rows, rest.readToEnd? n = some rows → rows = rowsOf lower upper)
      (hRest : Exact rowsOf rest) : Exact rowsOf (.opened lower upper (.ok n) :: rest)
  | read {n : Nat} {more : List Row → Bool} {rows : List Row} {left : Bool} {rest : Accesses}
      (h : left = true → more rows = false) (hRest : Exact rowsOf rest) :
      Exact rowsOf (.read n more rows (.ok left) :: rest)

end Accesses

namespace ScanProgram

variable {α β : Type}

/-- The program, with what it does noted. -/
def noting : ScanProgram α → ScanProgram (α × Accesses)
  | done a => done (a, [])
  | openScan lower upper rest => openScan lower upper fun n =>
    Prod.map id (.opened lower upper n :: ·) <$> (rest n).noting
  | readWhile n more rest => readWhile n more fun rows stop =>
    Prod.map id (.read n more rows stop :: ·) <$> (rest rows stop).noting

theorem result_run_map (f : α → β) (p : ScanProgram α) (cursors : List ComputedCursor)
    (ix : ComputedIndex) : ((f <$> p).run cursors ix).result
      = Prod.map f id (p.run cursors ix).result := by
  induction p generalizing cursors ix with
  | done a => rfl
  | openScan lower upper rest ih =>
    change ((openScan lower upper fun n => f <$> rest n).run cursors ix).result = _
    simp only [run, Traced.result_bind]
    split
    · exact ih _ _ _
    · exact ih _ _ _
  | readWhile n more rest ih =>
    change ((readWhile n more fun rows stop => f <$> rest rows stop).run cursors ix).result = _
    simp only [run]
    split
    · exact ih _ _ _ _
    · exact ih _ _ _ _

/-- Noting changes nothing else. -/
theorem result_run_noting (p : ScanProgram α) (cursors : List ComputedCursor)
    (ix : ComputedIndex) :
    (p.run cursors ix).result = Prod.map Prod.fst id (p.noting.run cursors ix).result := by
  induction p generalizing cursors ix with
  | done a => rfl
  | openScan lower upper rest ih =>
    simp only [noting, run, Traced.result_bind]
    split
    · rw [ih, result_run_map]
      rfl
    · rw [ih, result_run_map]
      rfl
  | readWhile n more rest ih =>
    simp only [noting, run]
    split
    · rw [ih, result_run_map]
      rfl
    · rw [Traced.result_bind, Traced.result_bind, ih, result_run_map]
      rfl

end ScanProgram

namespace ComputedIndex.Serves

variable {ix : ComputedIndex} {t : Table} {o : RowOrder} {ts ahead : List Tuple}

section

variable {c : ComputedCursor} (h : ix.Serves t o ts ahead) (hFeed : c.feed = .shared)

include h hFeed

theorem length_rowsOf_le : (o.rowsOf t.width c.lower c.upper ahead).length ≤ c.remaining ix := by
  obtain ⟨e, last, width, hSource, -, hDelivers⟩ := h.exists_source
  have hReads : c.evaluator ix = .ok e := by
    rw [ComputedCursor.evaluator, hFeed, working?, hSource]
  have hFilter := List.length_filter_le (o.inRange c.lower c.upper)
    (ahead.map (Row.ofTuple t.width))
  rw [List.length_map] at hFilter
  rw [ComputedCursor.remaining, hReads]
  exact Nat.le_trans hFilter hDelivers.length_le

/-- Reading stops with enough rows, and then the others are still ahead, or at the end. -/
theorem read (more : List Row → Bool) (got : List Row) {limit : Nat}
    (hLimit : (o.rowsOf t.width c.lower c.upper ahead).length < limit) :
    ∃ taken left place ix' ahead', (ScanProgram.read more limit got c ix).result
        = ⟨got ++ taken, .ok left, { c with place }, ix'⟩ ∧ ix'.Serves t o ts ahead' ∧
      (left = true → more (got ++ taken) = false) ∧
      o.rowsOf t.width c.lower c.upper ahead
        = taken ++ if left then o.rowsOf t.width c.lower c.upper ahead' else [] := by
  induction limit generalizing got c ix ahead with
  | zero => omega
  | succ limit ih =>
    by_cases hMore : more got = true
    · rw [ScanProgram.read, if_pos hMore, Traced.result_bind]
      cases hRows : o.rowsOf t.width c.lower c.upper ahead with
      | nil =>
        obtain ⟨ix', hNext, hServes⟩ := h.next_end hFeed hRows
        rw [hNext]
        refine ⟨[], false, .exhausted, ix', ts, ?_, hServes, nofun, rfl⟩
        rw [List.append_nil]
        rfl
      | cons r rest =>
        obtain ⟨ix', ahead', hNext, hServes, hRest⟩ := h.next_row hFeed hRows
        rw [hRows] at hLimit
        have hLimit' : (o.rowsOf t.width c.lower c.upper ahead').length < limit := by
          rw [hRest]
          exact Nat.lt_of_succ_lt_succ hLimit
        rw [hNext]
        obtain ⟨taken, left, place, ix₁, ahead₁, hRead, hServes₁, hStop, hTaken⟩ :=
          @ih ix' ahead' { c with place := .on r } hServes hFeed (got ++ [r]) hLimit'
        refine ⟨r :: taken, left, place, ix₁, ahead₁, ?_, hServes₁, ?_, ?_⟩
        · rw [List.append_cons]
          exact hRead
        · rw [List.append_cons]
          exact hStop
        · rw [← hRest, List.cons_append, ← hTaken]
    · rw [ScanProgram.read, if_neg hMore]
      refine ⟨[], true, c.place, ix, ahead, ?_, h, fun _ => ?_, rfl⟩
      · rw [List.append_nil]
        rfl
      · rw [List.append_nil]
        exact Bool.eq_false_iff.2 hMore

end

/-- What a program notes is exact, and so is what it reads with a cursor that was open before. -/
theorem run_noting {α : Type} {cursors : List ComputedCursor} (h : ix.Serves t o ts ahead)
    (hShared : ∀ c ∈ cursors, c.feed = .shared) (p : ScanProgram α) :
    ∃ a log ix' ahead', (p.noting.run cursors ix).result = ((a, log), ix') ∧
      ix'.Serves t o ts ahead' ∧
      log.Exact (fun lower upper => o.rowsOf t.width lower upper ts) ∧
      ∀ n c rows, cursors[n]? = some c → log.readToEnd? n = some rows →
        rows = o.rowsOf t.width c.lower c.upper ahead := by
  induction p generalizing cursors ix ahead with
  | done a => exact ⟨a, [], ix, ahead, rfl, h, .nil, fun _ _ _ _ hNone => nomatch hNone⟩
  | openScan lower upper rest ih =>
    obtain ⟨ix₁, hScan, hServes₁⟩ := h.scan lower upper
    have hShared₁ : ∀ c ∈ cursors ++ [{ feed := .shared, lower, upper }], c.feed = .shared := by
      intro c hc
      rcases List.mem_append.1 hc with hc | hc
      · exact hShared c hc
      · rw [List.mem_singleton.1 hc]
    obtain ⟨a, log, ix', ahead', hRun, hServes, hExact, hOpen⟩ :=
      ih (.ok cursors.length) hServes₁ hShared₁
    refine ⟨a, .opened lower upper (.ok cursors.length) :: log, ix', ahead', ?_, hServes,
      .opened (fun rows hRows => ?_) hExact, fun _ _ _ _ hNone => nomatch hNone⟩
    · simp only [ScanProgram.noting, ScanProgram.run, Traced.result_bind, hScan]
      rw [ScanProgram.result_run_map, hRun]
      rfl
    · exact hOpen cursors.length _ rows List.getElem?_concat_length hRows
  | readWhile n more rest ih =>
    cases hCursor : cursors[n]? with
    | none =>
      obtain ⟨a, log, ix', ahead', hRun, hServes, hExact, hOpen⟩ := ih [] (.ok false) h hShared
      refine ⟨a, .read n more [] (.ok false) :: log, ix', ahead', ?_, hServes,
        .read nofun hExact, fun m c rows hOther hRows => ?_⟩
      · simp only [ScanProgram.noting, ScanProgram.run, hCursor]
        rw [ScanProgram.result_run_map, hRun]
        rfl
      · have hNe : n ≠ m := by
          rintro rfl
          rw [hCursor] at hOther
          cases hOther
        rw [Accesses.readToEnd?_read_of_ne hNe] at hRows
        cases hRows
    | some c =>
      have hFeed := hShared c (List.mem_of_getElem? hCursor)
      obtain ⟨taken, left, place, ix₁, ahead₁, hRead, hServes₁, hStop, hTaken⟩ :=
        h.read hFeed more [] (Nat.lt_succ_of_le (h.length_rowsOf_le hFeed))
      have hShared₁ : ∀ c' ∈ cursors.set n { c with place }, c'.feed = .shared := by
        intro c' hc'
        rcases List.mem_or_eq_of_mem_set hc' with hc' | rfl
        · exact hShared c' hc'
        · exact hFeed
      obtain ⟨a, log, ix', ahead', hRun, hServes, hExact, hOpen⟩ :=
        ih taken (.ok left) hServes₁ hShared₁
      refine ⟨a, .read n more taken (.ok left) :: log, ix', ahead', ?_, hServes,
        .read hStop hExact, fun m c' rows hOther hRows => ?_⟩
      · simp only [ScanProgram.noting, ScanProgram.run, hCursor, Traced.result_bind, hRead]
        rw [ScanProgram.result_run_map, List.nil_append, hRun]
        rfl
      · by_cases hm : n = m
        · subst hm
          rw [hCursor] at hOther
          cases hOther
          rw [Accesses.readToEnd?_read_self] at hRows
          rw [hTaken]
          cases left with
          | false =>
            obtain rfl := Option.some.inj hRows
            exact (List.append_nil taken).symm
          | true =>
            obtain ⟨others, hOthers, rfl⟩ := Option.map_eq_some_iff.1 hRows
            have hSet : (cursors.set n { c with place })[n]? = some { c with place } :=
              List.getElem?_set_self (List.getElem?_eq_some_iff.1 hCursor).1
            rw [hOpen n _ others hSet hOthers]
            rfl
        · rw [Accesses.readToEnd?_read_of_ne hm] at hRows
          cases hRows

/-- A scan of the whole working table gives all its tuples, each in the table's width. -/
theorem run_scanWorking (h : ix.Serves t o ts ahead) :
    ∃ ix' ahead', (ScanProgram.scanWorking.run [] ix).result
        = (.ok (ts.map (Row.fitted t.width)), ix') ∧ ix'.Serves t o ts ahead' := by
  obtain ⟨ix₁, hScan, hServes₁⟩ := h.scan none none
  have hLimit := hServes₁.length_rowsOf_le (c := { feed := .shared, lower := none, upper := none }) rfl
  obtain ⟨taken, left, place, ix', ahead', hRead, hServes, hStop, hTaken⟩ :=
    hServes₁.read (c := { feed := .shared, lower := none, upper := none }) rfl (fun _ => true) []
      (Nat.lt_succ_of_le hLimit)
  -- such a reading never has enough, so it goes on to the end
  obtain rfl : left = false := Bool.eq_false_iff.2 fun hLeft => nomatch hStop hLeft
  have hAll : taken.map Row.values = ts.map (Row.fitted t.width) := by
    rw [RowOrder.rowsOf_none, if_neg Bool.false_ne_true, List.append_nil] at hTaken
    rw [← hTaken, List.map_map]
    rfl
  refine ⟨ix', ahead', ?_, hServes⟩
  change (ScanProgram.run (.openScan none none _) [] ix).result = _
  rw [ScanProgram.run, Traced.result_bind, hScan]
  change (ScanProgram.run (.readWhile 0 (fun _ => true) _) [_] ix₁).result = _
  rw [ScanProgram.run]
  change ((ScanProgram.read _ _ _ _ _ >>= _ : Traced _)).result = _
  rw [Traced.result_bind, hRead, ← hAll]
  rfl

end ComputedIndex.Serves

end IndexScan

import IndexScan.Proofs.Index.Computed
import IndexScan.Proofs.Index.Ledger

/-!
# One passage through the answer of a query

A cursor of a plain index goes through the rows in range once.  How often `next` has been called says
everything about it: where it is, what the next call answers, and whether its evaluator has been
closed.  `Passes` ties the cursor to that number, a call adds one to it (`Passes.next`), and other
calls do nothing (`Passes.journey`).
-/

namespace IndexScan

/-! ### Passages -/

/-- Rows to be gone through once, and what comes behind them: the end or a failure. -/
structure Passage where
  rows : List Row
  outcome : Except Error Unit

namespace Passage

variable {p : Passage} {n : Nat}

/-- Whether `n` calls have met the end. -/
def isOver (p : Passage) (n : Nat) : Bool := p.outcome.isOk && decide (p.rows.length < n)

/-- The place after `n` calls: the last row given, until the end has been met. -/
def place (p : Passage) (n : Nat) : Place Row :=
  if p.isOver n then .exhausted else (p.rows.take n).getLast?.elim .beforeFirst .on

/-- The answer to a call that comes after `n` others.  Once the end has been met the call is `late`. -/
def answer (p : Passage) (late : Error) (n : Nat) : Except Error Bool :=
  if n < p.rows.length then .ok true
  else if p.isOver n then .error late
  else p.outcome.map fun _ => false

theorem isOver_eq_false (h : n ≤ p.rows.length) : p.isOver n = false := by
  rw [isOver, decide_eq_false (Nat.not_lt_of_le h), Bool.and_false]

theorem isOver_of_failure {e : Error} (h : p.outcome = .error e) : p.isOver n = false := by
  rw [isOver, h]
  rfl

theorem length_lt_of_isOver (h : p.isOver n = true) : p.rows.length < n := by
  rw [isOver, Bool.and_eq_true] at h
  exact of_decide_eq_true h.2

theorem isOver_mono {m : Nat} (hmn : m ≤ n) (h : p.isOver m = true) : p.isOver n = true := by
  have hLength := length_lt_of_isOver h
  rw [isOver, Bool.and_eq_true] at h ⊢
  exact ⟨h.1, decide_eq_true (Nat.lt_of_lt_of_le hLength hmn)⟩

theorem place_zero : p.place 0 = .beforeFirst := by
  rw [place, isOver_eq_false (Nat.zero_le _), if_neg Bool.false_ne_true, List.take_zero]
  rfl

theorem place_of_isOver (h : p.isOver n = true) : p.place n = .exhausted := by
  rw [place, if_pos h]

theorem isExhausted_place : (p.place n).isExhausted = p.isOver n := by
  cases h : p.isOver n with
  | true =>
    rw [place_of_isOver h]
    rfl
  | false =>
    rw [place, h, if_neg Bool.false_ne_true]
    cases (p.rows.take n).getLast? <;> rfl

theorem place_succ (h : n < p.rows.length) : p.place (n + 1) = .on p.rows[n] := by
  rw [place, isOver_eq_false h, if_neg Bool.false_ne_true, List.take_succ_eq_append_getElem h,
    List.getLast?_concat]
  rfl

/-- A call that fails leaves the place as it is. -/
theorem place_succ_of_failure {e : Error} (h : p.outcome = .error e) (hn : p.rows.length ≤ n) :
    p.place (n + 1) = p.place n := by
  rw [place, place, isOver_of_failure h, isOver_of_failure h, List.take_of_length_le hn,
    List.take_of_length_le (Nat.le_succ_of_le hn)]

/-- What is seen of an evaluator from the `m`th call to the `n`th: that it is closed, if the end is met
on the way. -/
def seen (p : Passage) (closing : List Event) (m n : Nat) : List Event :=
  if p.isOver n && !p.isOver m then closing else []

theorem seen_self (closing : List Event) : p.seen closing n n = [] := by
  rw [seen, Bool.and_not_self, if_neg Bool.false_ne_true]

theorem seen_zero (closing : List Event) :
    p.seen closing 0 n = if p.isOver n then closing else [] := by
  rw [seen, isOver_eq_false (Nat.zero_le _), Bool.not_false, Bool.and_true]

theorem seen_append (closing : List Event) {m k : Nat} (hmn : m ≤ n) (hnk : n ≤ k) :
    p.seen closing m n ++ p.seen closing n k = p.seen closing m k := by
  cases hOver : p.isOver n with
  | true =>
    rw [seen, seen, seen, hOver, isOver_mono hnk hOver, Bool.not_true, Bool.and_false,
      if_neg Bool.false_ne_true, List.append_nil]
  | false =>
    have hUnder : p.isOver m = false :=
      Bool.eq_false_iff.2 fun h => Bool.false_ne_true (hOver.symm.trans (isOver_mono hmn h))
    rw [seen, seen, seen, hOver, hUnder, Bool.false_and, if_neg Bool.false_ne_true, List.nil_append]

end Passage

/-- The rows that moves have landed on. -/
def landings : List (Except Error Bool × Place Row) → List Row
  | [] => []
  | (.ok true, p) :: answers => p.current?.toList ++ landings answers
  | _ :: answers => landings answers

namespace ComputedCursor

variable {c : ComputedCursor} {ix : ComputedIndex} {p : Passage} {last : Evaluator} {n : Nat}

/-- The cursor goes through the passage and has been called `n` times.  What it reads is the evaluator
that is to become `last`. -/
structure Passes (c : ComputedCursor) (ix : ComputedIndex) (p : Passage) (last : Evaluator) (n : Nat) :
    Prop where
  place : c.place = p.place n
  feed_over : p.isOver n = true → c.feed = .owned last.close.result
  feed_under : p.isOver n = false → ∃ e ts, c.feed = .owned e ∧ e.Delivers ts p.outcome last ∧
    ix.order.rowsOf ix.table.width c.lower c.upper ts = p.rows.drop n

/-- The failure of a call that comes after the end. -/
def lateError (ix : ComputedIndex) : Error :=
  .internal s!"cursor on {ix.name} advanced after exhaustion"

namespace Passes

theorem isExhausted_eq (h : c.Passes ix p last n) : c.place.isExhausted = p.isOver n := by
  rw [h.place, Passage.isExhausted_place]

/-- After the end nothing is changed, and the evaluator is not touched. -/
theorem next_late (h : c.Passes ix p last n) (hOver : p.isOver n = true)
    (hPlain : ix.isRecursive = false) :
    c.next ix = pure (.error (lateError ix), c, ix) ∧ c.Passes ix p last (n + 1) := by
  have hOver' : p.isOver (n + 1) = true := Passage.isOver_mono (Nat.le_succ n) hOver
  have hLate : (c.place.isExhausted && !ix.isRecursive) = true := by
    rw [h.isExhausted_eq, hOver, hPlain]
    rfl
  refine ⟨?_, ?_, fun _ => h.feed_over hOver, fun hUnder => ?_⟩
  · rw [ComputedCursor.next, if_pos hLate]
    rfl
  · rw [h.place, Passage.place_of_isOver hOver, Passage.place_of_isOver hOver']
  · rw [hOver'] at hUnder
    cases hUnder

/-- At a failure everything stays as it is but the evaluator, which may have passed over rows. -/
theorem next_failed (h : c.Passes ix p last n) {e : Error} (hOutcome : p.outcome = .error e)
    (hn : p.rows.length ≤ n) :
    c.next ix = pure (.error e, { c with feed := .owned last }, ix) ∧
      ({ c with feed := .owned last } : ComputedCursor).Passes ix p last (n + 1) := by
  have hUnder : p.isOver n = false := Passage.isOver_of_failure hOutcome
  obtain ⟨e', ts, hFeed, hDelivers, hRows⟩ := h.feed_under hUnder
  rw [List.drop_of_length_le hn] at hRows
  rw [hOutcome] at hDelivers
  refine ⟨next_owned_failure (h.isExhausted_eq.trans hUnder) hFeed hDelivers hRows, ?_,
    fun hOver => ?_, fun _ => ⟨last, [], rfl, ?_, ?_⟩⟩
  · rw [Passage.place_succ_of_failure hOutcome hn]
    exact h.place
  · rw [Passage.isOver_of_failure hOutcome] at hOver
    cases hOver
  · rw [hOutcome]
    exact hDelivers.failed_again
  · rw [List.drop_of_length_le (Nat.le_succ_of_le hn)]
    rfl

/-- At the end the evaluator is closed. -/
theorem next_end (h : c.Passes ix p last n) (hOutcome : p.outcome = .ok ())
    (hn : p.rows.length = n) :
    c.next ix = ⟨(.ok false, { c with feed := .owned last.close.result, place := .exhausted }, ix),
        last.close.events⟩ ∧
      ({ c with feed := .owned last.close.result, place := .exhausted } : ComputedCursor).Passes ix p
        last (n + 1) := by
  have hUnder : p.isOver n = false := Passage.isOver_eq_false (Nat.le_of_eq hn.symm)
  have hOver : p.isOver (n + 1) = true := by
    rw [Passage.isOver, hOutcome, decide_eq_true (Nat.lt_succ_of_le (Nat.le_of_eq hn))]
    rfl
  obtain ⟨e, ts, hFeed, hDelivers, hRows⟩ := h.feed_under hUnder
  rw [List.drop_of_length_le (Nat.le_of_eq hn)] at hRows
  rw [hOutcome] at hDelivers
  refine ⟨next_owned_end (h.isExhausted_eq.trans hUnder) hFeed hDelivers hRows,
    (Passage.place_of_isOver hOver).symm, fun _ => rfl, fun hUnder' => ?_⟩
  rw [hOver] at hUnder'
  cases hUnder'

theorem next_row (h : c.Passes ix p last n) (hn : n < p.rows.length) :
    ∃ e, c.next ix = pure (.ok true, { c with feed := .owned e, place := .on p.rows[n] },
        { ix with stats := ix.stats.recordRow }) ∧
      ({ c with feed := .owned e, place := .on p.rows[n] } : ComputedCursor).Passes
        { ix with stats := ix.stats.recordRow } p last (n + 1) := by
  have hUnder : p.isOver n = false := Passage.isOver_eq_false (Nat.le_of_lt hn)
  have hUnder' : p.isOver (n + 1) = false := Passage.isOver_eq_false hn
  obtain ⟨e, ts, hFeed, hDelivers, hRows⟩ := h.feed_under hUnder
  rw [List.drop_eq_getElem_cons hn] at hRows
  obtain ⟨e', rest, hNext, hDelivers', hRest⟩ :=
    next_owned_row (h.isExhausted_eq.trans hUnder) hFeed hDelivers hRows
  refine ⟨e', hNext, (Passage.place_succ hn).symm, fun hOver => ?_, fun _ =>
    ⟨e', rest, rfl, hDelivers', hRest⟩⟩
  rw [hUnder'] at hOver
  cases hOver

/-- A call of `next` is answered by the number of calls before it, and the evaluator is closed by the
call that meets the end and by no other. -/
theorem next (h : c.Passes ix p last n) (hPlain : ix.isRecursive = false) : ∃ c' stats,
    c.next ix = ⟨(p.answer (lateError ix) n, c', { ix with stats }),
      p.seen last.close.events n (n + 1)⟩ ∧ c'.Passes { ix with stats } p last (n + 1) := by
  rw [Passage.answer, Passage.seen]
  by_cases hOver : p.isOver n = true
  · obtain ⟨hNext, hPasses⟩ := h.next_late hOver hPlain
    refine ⟨c, ix.stats, ?_, hPasses⟩
    rw [hNext, if_neg (Nat.lt_asymm (Passage.length_lt_of_isOver hOver)), if_pos hOver, hOver,
      Bool.not_true, Bool.and_false, if_neg Bool.false_ne_true]
    rfl
  rw [if_neg hOver]
  by_cases hn : n < p.rows.length
  · obtain ⟨e, hNext, hPasses⟩ := h.next_row hn
    refine ⟨_, _, ?_, hPasses⟩
    rw [hNext, if_pos hn, Passage.isOver_eq_false hn, Bool.false_and, if_neg Bool.false_ne_true]
    rfl
  rw [if_neg hn]
  cases hOutcome : p.outcome with
  | error err =>
    obtain ⟨hNext, hPasses⟩ := h.next_failed hOutcome (Nat.le_of_not_lt hn)
    refine ⟨_, ix.stats, ?_, hPasses⟩
    rw [hNext, Passage.isOver_of_failure hOutcome, Bool.false_and, if_neg Bool.false_ne_true]
    rfl
  | ok _ =>
    have hLength : p.rows.length = n := by
      rw [Passage.isOver, hOutcome, Bool.and_eq_true, decide_eq_true_iff] at hOver
      have hLe : ¬ p.rows.length < n := fun hLt => hOver ⟨rfl, hLt⟩
      omega
    obtain ⟨hNext, hPasses⟩ := h.next_end hOutcome hLength
    refine ⟨_, ix.stats, ?_, hPasses⟩
    have hMeets : p.isOver (n + 1) = true := by
      rw [← Passage.isExhausted_place, ← hPasses.place]
      rfl
    rw [hNext, hMeets, Bool.eq_false_iff.2 hOver, Bool.not_false, Bool.and_true, if_pos rfl]
    rfl

/-- The answer, and the row that the call has landed on if there is one. -/
theorem landings_next {c' : ComputedCursor} {ix' : ComputedIndex} {late : Error}
    (h' : c'.Passes ix' p last (n + 1)) (answers : List (Except Error Bool × Place Row)) :
    landings ((p.answer late n, c'.place) :: answers)
      = (p.rows.drop n).take 1 ++ landings answers := by
  rw [h'.place, Passage.answer]
  by_cases hn : n < p.rows.length
  · rw [Passage.place_succ hn, if_pos hn, List.drop_eq_getElem_cons hn]
    rfl
  · rw [List.drop_of_length_le (Nat.le_of_not_lt hn), if_neg hn]
    cases p.isOver n with
    | true => rfl
    | false => cases p.outcome <;> rfl

/-- However the cursor is moved, it has gone as far as `next` has been called. -/
theorem journey (h : c.Passes ix p last n) (hPlain : ix.isRecursive = false) (ms : List Move) :
    ∃ answers c' stats, Index.journey ix c ms = ⟨(answers, c', { ix with stats }),
        p.seen last.close.events n (n + ms.count .next)⟩ ∧
      landings answers = (p.rows.drop n).take (ms.count .next) ∧
      c'.Passes { ix with stats } p last (n + ms.count .next) := by
  induction ms generalizing c ix n with
  | nil =>
    refine ⟨[], c, ix.stats, ?_, rfl, h⟩
    rw [List.count_nil, Nat.add_zero, Passage.seen_self]
    rfl
  | cons m ms ih =>
    cases m with
    | previous =>
      obtain ⟨answers, c', stats, hJourney, hLandings, hPasses⟩ := ih h hPlain
      have hCount : (Move.previous :: ms).count .next = ms.count .next :=
        List.count_cons_of_ne (by decide)
      rw [hCount]
      exact ⟨_, c', stats, Index.journey_cons rfl hJourney, hLandings, hPasses⟩
    | next =>
      obtain ⟨c₁, stats₁, hNext, hPasses₁⟩ := h.next hPlain
      obtain ⟨answers, c', stats, hJourney, hLandings, hPasses⟩ := ih hPasses₁ hPlain
      have hCount : n + (Move.next :: ms).count .next = n + 1 + ms.count .next := by
        rw [List.count_cons_self]
        omega
      have hMove : Index.move ix c .next = _ := hNext
      have hMoves := Index.journey_cons hMove hJourney
      rw [Passage.seen_append _ (Nat.le_succ n) (Nat.le_add_right _ _)] at hMoves
      rw [hCount]
      refine ⟨_, c', stats, hMoves, (hPasses₁.landings_next answers).trans ?_, hPasses⟩
      rw [hLandings, List.count_cons_self, Nat.add_comm (ms.count _) 1, List.take_add,
        List.drop_drop]

end Passes

/-- What a cursor shows after moves of which `n` were calls of `next`. -/
structure Stands (c : ComputedCursor) (ix : ComputedIndex) (p : Passage) (last : Evaluator) (n : Nat) :
    Prop where
  place_eq : c.place = p.place n
  isSome_current : c.place.current?.isSome = true ↔ ∃ r, c.place = .on r
  /-- The evaluator is open until the end has been met, and is then closed. -/
  feed_under : p.isOver n = false → ∃ e, c.feed = .owned e ∧ e.isClosed = false
  feed_over : p.isOver n = true → c.feed = .owned last.close.result
  next_row : ∀ h : n < p.rows.length, ∃ c' ix',
    Index.next ix c = pure (.ok true, c', ix') ∧ c'.place = .on p.rows[n]
  next_failure : ∀ e, p.outcome = .error e → p.rows.length ≤ n → ∃ c',
    Index.next ix c = pure (.error e, c', ix) ∧ c'.place = c.place
  next_end : p.outcome = .ok () → p.rows.length = n → ∃ c',
    Index.next ix c = ⟨(.ok false, c', ix), last.close.events⟩ ∧ c'.place = .exhausted
  next_late : p.isOver n = true → Index.next ix c = pure (.error (lateError ix), c, ix)
  previous_eq : Index.previous ix c
    = pure (.error (.unsupported s!"cursor on {ix.name} only moves forward"), c, ix)

theorem Passes.stands (h : c.Passes ix p last n) (hPlain : ix.isRecursive = false)
    (hOpen : last.isClosed = false) : c.Stands ix p last n where
  place_eq := h.place
  isSome_current := by
    cases c.place with
    | on r => exact iff_of_true rfl ⟨r, rfl⟩
    | beforeFirst => exact iff_of_false Bool.false_ne_true nofun
    | exhausted => exact iff_of_false Bool.false_ne_true nofun
  feed_under hUnder := by
    obtain ⟨e, ts, hFeed, hDelivers, -⟩ := h.feed_under hUnder
    exact ⟨e, hFeed, hDelivers.isClosed_last.symm.trans hOpen⟩
  feed_over := h.feed_over
  next_row hn := by
    obtain ⟨e, hNext, -⟩ := h.next_row hn
    exact ⟨_, _, hNext, rfl⟩
  next_failure e hOutcome hn := ⟨_, (h.next_failed hOutcome hn).1, rfl⟩
  next_end hOutcome hn := ⟨_, (h.next_end hOutcome hn).1, rfl⟩
  next_late hOver := (h.next_late hOver hPlain).1
  previous_eq := rfl

end ComputedCursor

/-- That an evaluator is closed shows in it, or in what is seen of it. -/
theorem Query.close_of_execute {q : Query} {e last : Evaluator} {ts : List Tuple}
    {outcome : Except Error Unit} (hExecute : q.execute.result = .ok e)
    (h : e.Delivers ts outcome last) :
    (∀ v, q = .values v → last.close.result.isClosed = true) ∧
      (∀ r, q = .recorded r → last.close.events = [.closed]) := by
  have hRewound := h.rewound_eq
  cases q with
  | values v =>
    refine ⟨fun _ _ => ?_, fun _ hQuery => nomatch hQuery⟩
    cases hExecute
    cases last with
    | buffer b => rfl
    | playback p => cases hRewound
  | recorded r =>
    refine ⟨fun _ hQuery => (nomatch hQuery), fun _ _ => ?_⟩
    simp only [execute, Traced.result_bind] at hExecute
    cases hFailure : r.executeFailure with
    | some err =>
      rw [hFailure] at hExecute
      cases hExecute
    | none =>
      rw [hFailure] at hExecute
      cases hExecute
      cases last with
      | buffer b => cases hRewound
      | playback p => rfl

/-- Scans of a plain index are exact, whatever its query delivers: the cursor lands on the rows in range
one by one, a failure leaves it where it is, and the evaluator is closed when the end is met. -/
theorem ComputedIndex.cursor_of_query {ix : ComputedIndex} {q : Query} {e : Evaluator}
    (hSource : ix.source = .query q) (hExecute : q.execute.result = .ok e)
    (lower upper : Option Bound) : ∃ c ix' last,
      Index.scan ix lower upper = ⟨(.ok c, ix'), q.execute.events⟩ ∧
      e.Delivers q.delivery.1 q.delivery.2 last ∧
      (∀ v, q = .values v → last.close.result.isClosed = true) ∧
      (∀ r, q = .recorded r → last.close.events = [.closed]) ∧
      ∀ ms : List Move, ∃ answers c₁ ix₁,
        let p : Passage := ⟨ix.order.rowsOf ix.table.width lower upper q.delivery.1, q.delivery.2⟩
        let n := ms.count .next
        Index.journey ix' c ms
          = ⟨(answers, c₁, ix₁), if p.isOver n then last.close.events else []⟩ ∧
        landings answers = p.rows.take n ∧ c₁.Stands ix₁ p last n := by
  rcases q.execute_cases with ⟨err, hError, -⟩ | ⟨e', last, hOk, hOpen, hDelivers, -⟩
  · rw [hExecute] at hError
    cases hError
  rw [hExecute] at hOk
  cases hOk
  have hPlain : (scan.counted ix).isRecursive = false := by
    rw [isRecursive, scan.counted, hSource]
  have hBegins : ComputedCursor.Passes { feed := .owned e, lower, upper } (scan.counted ix)
      ⟨ix.order.rowsOf ix.table.width lower upper q.delivery.1, q.delivery.2⟩ last 0 :=
    ⟨Passage.place_zero.symm, fun h => absurd (Passage.length_lt_of_isOver h) (Nat.not_lt_zero _),
      fun _ => ⟨e, _, rfl, hDelivers, rfl⟩⟩
  obtain ⟨hValues, hRecorded⟩ := Query.close_of_execute hExecute hDelivers
  refine ⟨{ feed := .owned e, lower, upper }, scan.counted ix, last, ?_, hDelivers, hValues,
    hRecorded, fun ms => ?_⟩
  · have hScan : Index.scan ix lower upper = ix.scan lower upper := rfl
    rw [hScan, scan, hSource]
    refine Traced.ext ?_ ?_
    · simp only [Traced.result_bind, hExecute]
      rfl
    · simp only [Traced.events_bind, hExecute, Traced.events_pure, List.append_nil]
  · obtain ⟨answers, c₁, stats, hJourney, hLandings, hPasses⟩ := hBegins.journey hPlain ms
    rw [Nat.zero_add] at hJourney hPasses
    rw [Passage.seen_zero] at hJourney
    exact ⟨answers, c₁, _, hJourney, hLandings,
      hPasses.stands hPlain (hDelivers.isClosed_last.trans hOpen)⟩

/-- The tuples are of three widths, one row is out of range, and reading on fails behind the third. -/
def interruptedQuery : Query :=
  .recorded
    { query := "SELECT a, b FROM pairs", width := 2
      tuples := [[.int64 1], [.int64 5, .null], [.int64 2, .int64 7, .int64 8], [.int64 0]]
      failure := some (3, .interrupted "SELECT") }

theorem ComputedIndex.cursor_of_interrupted_query : ∃ t ix c ix' last answers c₁ ix₁,
    Table.declare "pairs" [.kind .view, .column "a" .int64, .column "b" .int64, .nullable ["b"],
      .queryIndex "all" [⟨"a", .descending⟩]] = .ok t ∧
    create t "all" (.query interruptedQuery) {} = .ok ix ∧
    Index.scan ix (some ⟨[some (.int64 4)]⟩) none = ⟨(.ok c, ix'), [.executed]⟩ ∧
    Index.journey ix' c [.next, .previous, .next, .next, .next] = ⟨(answers, c₁, ix₁), []⟩ ∧
    landings answers = [Row.dummy [.int64 1, .null], Row.dummy [.int64 2, .int64 7]] ∧
    c₁.Stands ix₁ ⟨[Row.dummy [.int64 1, .null], Row.dummy [.int64 2, .int64 7]],
      .error (.interrupted "SELECT")⟩ last 4 := by
  obtain ⟨c, ix', last, hScan, -, -, -, hMoves⟩ := @cursor_of_query
    { name := "all", table := _, order := _, source := .query interruptedQuery } interruptedQuery _
    rfl rfl (some ⟨[some (.int64 4)]⟩) none
  obtain ⟨answers, c₁, ix₁, hJourney, hLandings, hStands⟩ :=
    hMoves [.next, .previous, .next, .next, .next]
  exact ⟨_, _, c, ix', last, answers, c₁, ix₁, rfl, rfl, hScan, hJourney, hLandings, hStands⟩

end IndexScan

import IndexScan.Evaluation.Query

/-!
# What evaluators deliver

Reading on with an evaluator comes to some tuples and then to the end or to a failure.  `Delivers`
is this as a relation, made of the calls that are answered.  Reading to the end gives all of it
(`Delivers.readAll_eq`), and reading on to the next row to be kept gives the first one that the
tuples make, with the tuples after it still to come (`Delivers.exists_nextRow`).
-/

namespace IndexScan

namespace Row

/-- The row that is read into from a tuple. -/
def ofTuple (width : Nat) (t : Tuple) : Row := dummy (fitted width t)

theorem fill_template (width : Nat) (t : Tuple) : (template width).fill t = ofTuple width t := by
  rw [fill, Row.width, template, dummy, List.length_replicate]
  rfl

theorem length_fitted (width : Nat) (t : Tuple) : (fitted width t).length = width := by
  rw [fitted, List.length_append, List.length_take, List.length_replicate]
  omega

theorem fitted_eq_self {width : Nat} {t : Tuple} (h : t.length = width) : fitted width t = t := by
  subst h
  simp [fitted]

/-- The first row to be kept of those that tuples make, and the tuples behind it. -/
def first? (width : Nat) (keep : Row → Bool) : List Tuple → Option (Row × List Tuple)
  | [] => none
  | t :: ts =>
    if keep (ofTuple width t) then some (ofTuple width t, ts) else first? width keep ts

section

variable {width : Nat} {keep : Row → Bool} {ts : List Tuple}

theorem filter_of_first?_eq_none (h : first? width keep ts = none) :
    (ts.map (ofTuple width)).filter keep = [] := by
  induction ts with
  | nil => rfl
  | cons t ts ih =>
    rw [first?] at h
    by_cases hKeep : keep (ofTuple width t) = true
    · rw [if_pos hKeep] at h
      cases h
    · rw [if_neg hKeep] at h
      rw [List.map_cons, List.filter_cons_of_neg hKeep, ih h]

theorem filter_of_first?_eq_some {r : Row} {rest : List Tuple}
    (h : first? width keep ts = some (r, rest)) :
    (ts.map (ofTuple width)).filter keep = r :: (rest.map (ofTuple width)).filter keep := by
  induction ts with
  | nil => cases h
  | cons t ts ih =>
    rw [first?] at h
    by_cases hKeep : keep (ofTuple width t) = true
    · rw [if_pos hKeep] at h
      cases h
      rw [List.map_cons, List.filter_cons_of_pos hKeep]
    · rw [if_neg hKeep] at h
      rw [List.map_cons, List.filter_cons_of_neg hKeep, ih h]

theorem first?_eq_none_of_filter (h : (ts.map (ofTuple width)).filter keep = []) :
    first? width keep ts = none := by
  cases hFirst : first? width keep ts with
  | none => rfl
  | some found =>
    rw [filter_of_first?_eq_some hFirst] at h
    cases h

theorem exists_first?_of_filter {r : Row} {rows : List Row}
    (h : (ts.map (ofTuple width)).filter keep = r :: rows) :
    ∃ rest, first? width keep ts = some (r, rest) ∧
      (rest.map (ofTuple width)).filter keep = rows := by
  cases hFirst : first? width keep ts with
  | none =>
    rw [filter_of_first?_eq_none hFirst] at h
    cases h
  | some found =>
    obtain ⟨r', rest⟩ := found
    rw [filter_of_first?_eq_some hFirst] at h
    cases h
    exact ⟨rest, rfl, rfl⟩

end

end Row

namespace Evaluator

/-- Reading on delivers tuples and stops at the end or with a failure. -/
inductive Delivers : Evaluator → List Tuple → Except Error Unit → Evaluator → Prop
  | ended {e last : Evaluator} (h : e.next = (.ok false, last)) : Delivers e [] (.ok ()) last
  | failed {e last : Evaluator} {err : Error} (h : e.next = (.error err, last)) :
      Delivers e [] (.error err) last
  | more {e e' last : Evaluator} {ts : List Tuple} {outcome : Except Error Unit}
      (h : e.next = (.ok true, e')) (rest : Delivers e' ts outcome last) :
      Delivers e (e'.current :: ts) outcome last

section

variable {e e' : Evaluator} {width : Nat} {keep : Row → Bool}

theorem nextRow_of_end (h : e.next = (.ok false, e')) : e.nextRow width keep = (.ok none, e') := by
  rw [nextRow]
  split <;> simp_all

theorem nextRow_of_failure {err : Error} (h : e.next = (.error err, e')) :
    e.nextRow width keep = (.error err, e') := by
  rw [nextRow]
  split <;> simp_all

theorem nextRow_of_next (h : e.next = (.ok true, e')) :
    e.nextRow width keep = if keep (Row.ofTuple width e'.current)
      then (.ok (some (Row.ofTuple width e'.current)), e') else e'.nextRow width keep := by
  rw [nextRow]
  split
  · simp_all
  · simp_all
  · next e'' h' =>
    obtain rfl : e' = e'' := by simpa [h] using h'
    rw [Row.fill_template]

end

/-- The evaluator before the first tuple. -/
def rewound : Evaluator → Evaluator
  | buffer b => buffer { b with reader := .delivered 0 }
  | playback p => playback { p with position := 0 }

theorem rewound_next (e : Evaluator) : e.next.2.rewound = e.rewound := by
  cases e with
  | buffer b =>
    rw [next, Buffer.next]
    split
    · rfl
    · rfl
    · split <;> rfl
  | playback p =>
    rw [next, Playback.next]
    split
    · rfl
    · split <;> rfl

theorem isClosed_next (e : Evaluator) : e.next.2.isClosed = e.isClosed := by
  cases e with
  | buffer b =>
    rw [next, Buffer.next]
    split
    · rfl
    · rfl
    · next n hReader =>
      have hOpen : (buffer b).isClosed = false := by
        rw [isClosed, Buffer.isClosed, hReader]
        rfl
      rw [hOpen]
      split <;> rfl
  | playback p => rfl

/-- A failure leaves the evaluator where it is. -/
theorem eq_of_next_eq_error {e e' : Evaluator} {err : Error} (h : e.next = (.error err, e')) :
    e' = e := by
  cases e with
  | buffer b =>
    rw [next, Buffer.next] at h
    split at h
    · exact (congrArg Prod.snd h).symm
    · cases h
    · split at h <;> cases h
  | playback p =>
    rw [next, Playback.next] at h
    split at h
    · exact (congrArg Prod.snd h).symm
    · split at h <;> cases h

theorem isClosed_of_next {e e' : Evaluator} {answer : Bool} (h : e.next = (.ok answer, e')) :
    e.isClosed = false ∧ e'.isClosed = false := by
  cases e with
  | buffer b =>
    obtain ⟨width, rows, reader⟩ := b
    cases reader with
    | delivered n =>
      by_cases hn : n < rows.length <;> simp [next, Buffer.next, hn] at h <;>
        simp [isClosed, Buffer.isClosed, ← h.2]
    | ended =>
      simp only [next, Buffer.next, Prod.mk.injEq] at h
      simp [isClosed, Buffer.isClosed, ← h.2]
    | closed => simp [next, Buffer.next] at h
  | playback p =>
    obtain rfl : playback p.next.2 = e' := congrArg Prod.snd h
    exact ⟨rfl, rfl⟩

theorem reset_eq {e : Evaluator} {b : Buffer} (hOpen : e.isClosed = false)
    (hRewound : e.rewound = .buffer b) : e.reset = pure (.ok (), .buffer b) := by
  cases e with
  | buffer b' =>
    obtain rfl : { b' with reader := .delivered 0 } = b := by simpa [rewound] using hRewound
    have hOpen : b'.isClosed = false := hOpen
    simp [reset, Buffer.reset, hOpen]
  | playback p => cases hRewound

namespace Delivers

variable {e last : Evaluator} {ts : List Tuple} {outcome : Except Error Unit}

theorem rewound_eq (h : e.Delivers ts outcome last) : last.rewound = e.rewound := by
  induction h with
  | @ended e last h => rw [← e.rewound_next, h]
  | @failed e last err h => rw [← e.rewound_next, h]
  | @more e e' last ts outcome h _ ih => rw [ih, ← e.rewound_next, h]

theorem isClosed_last (h : e.Delivers ts outcome last) : last.isClosed = e.isClosed := by
  induction h with
  | @ended e last h => rw [← e.isClosed_next, h]
  | @failed e last err h => rw [← e.isClosed_next, h]
  | @more e e' last ts outcome h _ ih => rw [ih, ← e.isClosed_next, h]

/-- A failure is met again whenever it is read on. -/
theorem failed_again {err : Error} (h : e.Delivers ts (.error err) last) :
    last.Delivers [] (.error err) last := by
  generalize hOutcome : Except.error err = outcome at h
  induction h with
  | ended h => cases hOutcome
  | @failed e last err' h =>
    cases hOutcome
    obtain rfl := eq_of_next_eq_error h
    exact .failed h
  | more h _ ih => exact ih hOutcome

theorem isClosed_eq (h : e.Delivers ts (.ok ()) last) :
    e.isClosed = false ∧ last.isClosed = false := by
  generalize hOutcome : Except.ok () = outcome at h
  induction h with
  | ended h => exact isClosed_of_next h
  | failed h => cases hOutcome
  | more h _ ih => exact ⟨(isClosed_of_next h).1, (ih hOutcome).2⟩

theorem length_le (h : e.Delivers ts outcome last) : ts.length ≤ e.remaining := by
  induction h with
  | ended h => exact Nat.zero_le _
  | failed h => exact Nat.zero_le _
  | more h _ ih => exact Nat.lt_of_le_of_lt ih (remaining_next_lt h)

theorem readAll_eq (h : e.Delivers ts outcome last) :
    e.readAll = (outcome.map fun _ => ts, last) := by
  induction h with
  | ended h =>
    rw [readAll]
    split <;> simp_all [Except.map]
  | failed h =>
    rw [readAll]
    split <;> simp_all [Except.map]
  | @more e e' last ts outcome h _ ih =>
    rw [readAll]
    split
    · simp_all
    · simp_all
    · next e'' h' =>
      obtain rfl : e' = e'' := by simpa [h] using h'
      rw [ih]
      cases outcome <;> rfl

section

variable {width : Nat} {keep : Row → Bool}

/-- When no tuple makes a row to be kept, reading on comes to the end or to the failure. -/
theorem nextRow_of_none (h : e.Delivers ts outcome last) (hNone : Row.first? width keep ts = none) :
    e.nextRow width keep = (outcome.map fun _ => none, last) := by
  induction h with
  | ended h => exact nextRow_of_end h
  | failed h => exact nextRow_of_failure h
  | @more e e' last ts outcome h _ ih =>
    rw [Row.first?] at hNone
    rw [nextRow_of_next h]
    by_cases hKeep : keep (Row.ofTuple width e'.current) = true
    · rw [if_pos hKeep] at hNone
      cases hNone
    · rw [if_neg hKeep] at hNone ⊢
      exact ih hNone

theorem exists_nextRow_of_some {r : Row} {rest : List Tuple} (h : e.Delivers ts outcome last)
    (hSome : Row.first? width keep ts = some (r, rest)) :
    ∃ e', e.nextRow width keep = (.ok (some r), e') ∧ e'.Delivers rest outcome last := by
  induction h with
  | ended h => cases hSome
  | failed h => cases hSome
  | @more e e' last ts outcome h hRest ih =>
    rw [Row.first?] at hSome
    rw [nextRow_of_next h]
    by_cases hKeep : keep (Row.ofTuple width e'.current) = true
    · rw [if_pos hKeep] at hSome ⊢
      cases hSome
      exact ⟨e', rfl, hRest⟩
    · rw [if_neg hKeep] at hSome ⊢
      exact ih hSome

theorem nextRow_eq_none (h : e.Delivers ts outcome last)
    (hNone : (ts.map (Row.ofTuple width)).filter keep = []) :
    e.nextRow width keep = (outcome.map fun _ => none, last) :=
  h.nextRow_of_none (Row.first?_eq_none_of_filter hNone)

theorem exists_nextRow {r : Row} {rows : List Row} (h : e.Delivers ts outcome last)
    (hRows : (ts.map (Row.ofTuple width)).filter keep = r :: rows) :
    ∃ e' rest, e.nextRow width keep = (.ok (some r), e') ∧ e'.Delivers rest outcome last ∧
      (rest.map (Row.ofTuple width)).filter keep = rows := by
  obtain ⟨rest, hSome, hRest⟩ := Row.exists_first?_of_filter hRows
  obtain ⟨e', hNext, hDelivers⟩ := h.exists_nextRow_of_some hSome
  exact ⟨e', rest, hNext, hDelivers, hRest⟩

end

end Delivers

end Evaluator

/-! ### What buffers and playbacks deliver -/

/-- The tuples that a buffer has yet to deliver. -/
def Buffer.ahead (b : Buffer) : List Tuple :=
  match b.reader with
  | .delivered n => b.rows.drop n
  | _ => []

namespace Evaluator

/-- An evaluator that goes from position to position delivers the tuples from its position on. -/
theorem delivers_drop {f : Nat → Evaluator} {ts : List Tuple} {outcome : Except Error Unit}
    {last : Evaluator}
    (hNext : ∀ p (h : p < ts.length), (f p).next = (.ok true, f (p + 1)) ∧
      (f (p + 1)).current = ts[p])
    (hEnd : (f ts.length).Delivers [] outcome last) {p : Nat} (hp : p ≤ ts.length) :
    (f p).Delivers (ts.drop p) outcome last := by
  induction hn : ts.length - p generalizing p with
  | zero =>
    obtain rfl : p = ts.length := by omega
    rwa [List.drop_length]
  | succ n ih =>
    have hLt : p < ts.length := by omega
    obtain ⟨hStep, hCurrent⟩ := hNext p hLt
    rw [List.drop_eq_getElem_cons hLt, ← hCurrent]
    exact .more hStep (ih hLt (by omega))

theorem delivers_buffer_drop (width : Nat) (rows : List Tuple) {p : Nat} (hp : p ≤ rows.length) :
    (buffer { width, rows, reader := .delivered p }).Delivers (rows.drop p) (.ok ())
      (buffer { width, rows, reader := .ended }) := by
  have hNext : ∀ p (h : p < rows.length),
      (buffer { width, rows, reader := .delivered p }).next
        = (.ok true, buffer { width, rows, reader := .delivered (p + 1) }) ∧
      (buffer { width, rows, reader := .delivered (p + 1) }).current = rows[p] := by
    intro p hp
    refine ⟨?_, ?_⟩
    · simp [next, Buffer.next, hp]
    · simp [current, Buffer.current, hp]
  have hEnd : (buffer { width, rows, reader := .delivered rows.length }).next
      = (.ok false, buffer { width, rows, reader := .ended }) := by
    simp [next, Buffer.next]
  exact delivers_drop (f := fun p => buffer { width, rows, reader := .delivered p }) hNext
    (.ended hEnd) hp

theorem delivers_buffer (width : Nat) (rows : List Tuple) :
    (buffer { width, rows }).Delivers rows (.ok ()) (buffer { width, rows, reader := .ended }) :=
  delivers_buffer_drop width rows (Nat.zero_le _)

/-- An open buffer can be read on, wherever its reader is. -/
theorem delivers_ahead {b : Buffer} (hOpen : b.isClosed = false) :
    (buffer b).Delivers b.ahead (.ok ()) (buffer { b with reader := .ended }) := by
  obtain ⟨width, rows, reader⟩ := b
  cases reader with
  | delivered p =>
    by_cases hp : p ≤ rows.length
    · exact delivers_buffer_drop width rows hp
    · have hEnd : (buffer { width, rows, reader := .delivered p }).next
          = (.ok false, buffer { width, rows, reader := .ended }) := by
        simp [next, Buffer.next, Nat.not_lt_of_ge (Nat.le_of_not_le hp)]
      have hNone : rows.drop p = [] := List.drop_of_length_le (Nat.le_of_not_le hp)
      simp only [Buffer.ahead, hNone]
      exact .ended hEnd
  | ended => exact .ended rfl
  | closed => cases hOpen

end Evaluator

/-- The tuples of a recording that are delivered, and what comes after them. -/
def Recording.delivery (r : Recording) : List Tuple × Except Error Unit :=
  match r.failure with
  | some (n, e) => if n ≤ r.tuples.length then (r.tuples.take n, .error e) else (r.tuples, .ok ())
  | none => (r.tuples, .ok ())

namespace Evaluator

/-- A playback goes on up to a position that the failure is not before. -/
theorem delivers_take {r : Recording} {n : Nat} {outcome : Except Error Unit} {last : Evaluator}
    (hn : n ≤ r.tuples.length) (hFailure : ∀ m e, r.failure = some (m, e) → n ≤ m)
    (hEnd : (playback { recording := r, position := n }).Delivers [] outcome last) :
    (playback { recording := r }).Delivers (r.tuples.take n) outcome last := by
  have hLength : (r.tuples.take n).length = n := by
    rw [List.length_take]
    omega
  refine delivers_drop (f := fun p => playback { recording := r, position := p })
    (fun p hp => ?_) (by rwa [hLength]) (Nat.zero_le _)
  rw [hLength] at hp
  have hLt : p < r.tuples.length := by omega
  have hNone : ({ recording := r, position := p } : Playback).failure? = none := by
    rw [Playback.failure?]
    split
    · next m e h => exact if_neg (Nat.ne_of_gt (Nat.lt_of_lt_of_le hp (hFailure m e h)))
    · rfl
  refine ⟨?_, ?_⟩
  · simp [next, Playback.next, hNone, hLt]
  · simp [current, Playback.current, hLt]

theorem delivers_playback (r : Recording) : ∃ last,
    (playback { recording := r }).Delivers r.delivery.1 r.delivery.2 last := by
  have hWhole : (∀ m e, r.failure = some (m, e) → r.tuples.length < m) → ∃ last,
      (playback { recording := r }).Delivers r.tuples (.ok ()) last := by
    intro hFailure
    have hNone : ({ recording := r, position := r.tuples.length } : Playback).failure? = none := by
      rw [Playback.failure?]
      split
      · next m e h => exact if_neg (Nat.ne_of_gt (hFailure m e h))
      · rfl
    have hEnd : (playback { recording := r, position := r.tuples.length }).next
        = (.ok false, playback { recording := r, position := r.tuples.length }) := by
      simp [next, Playback.next, hNone]
    have hAll := delivers_take (Nat.le_refl _) (fun m e h => Nat.le_of_lt (hFailure m e h))
      (.ended hEnd)
    rw [List.take_length] at hAll
    exact ⟨_, hAll⟩
  rw [Recording.delivery]
  split
  · next n e hFailure =>
    by_cases hn : n ≤ r.tuples.length
    · rw [if_pos hn]
      have hEnd : (playback { recording := r, position := n }).next
          = (.error e, playback { recording := r, position := n }) := by
        simp [next, Playback.next, Playback.failure?, hFailure]
      refine ⟨_, delivers_take hn (fun m e' h => ?_) (.failed hEnd)⟩
      rw [hFailure] at h
      cases h
      exact Nat.le_refl n
    · rw [if_neg hn]
      refine hWhole fun m e' h => ?_
      rw [hFailure] at h
      cases h
      omega
  · next hFailure =>
    refine hWhole fun m e h => ?_
    rw [hFailure] at h
    cases h

end Evaluator

/-- The tuples that an execution of a query delivers, and what comes after them. -/
def Query.delivery : Query → List Tuple × Except Error Unit
  | values q => (q.rows, .ok ())
  | recorded r => r.delivery

/-- What a query answers: its tuples if it can be executed and read to the end. -/
def Query.answer : Query → Except Error (List Tuple)
  | values q => .ok q.rows
  | recorded r =>
    match r.executeFailure with
    | some e => .error e
    | none => r.delivery.2.map fun _ => r.delivery.1

/-- A query is refused when it is executed, or is executed and delivers. -/
theorem Query.execute_cases (q : Query) :
    (∃ e, q.execute.result = .error e ∧ q.answer = .error e) ∨
      ∃ e last, q.execute.result = .ok e ∧ e.isClosed = false ∧
        e.Delivers q.delivery.1 q.delivery.2 last ∧
        q.answer = q.delivery.2.map fun _ => q.delivery.1 := by
  cases q with
  | values q =>
    exact Or.inr ⟨_, _, rfl, rfl, Evaluator.delivers_buffer q.width q.rows, rfl⟩
  | recorded r =>
    simp only [execute, answer, Traced.result_bind]
    cases r.executeFailure with
    | some e => exact Or.inl ⟨e, rfl, rfl⟩
    | none =>
      obtain ⟨last, hDelivers⟩ := Evaluator.delivers_playback r
      exact Or.inr ⟨_, last, rfl, rfl, hDelivers, rfl⟩

end IndexScan

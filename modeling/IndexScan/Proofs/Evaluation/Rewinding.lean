import Mathlib.Data.List.Basic
import IndexScan.Evaluation.Buffer

/-!
# A buffer is read once between rewinds

Between two rewinds a buffer is only read on and appended to.  Such a stretch of calls has two parts
(`Reads`): in the first one the tuples are delivered from the first one on, the appended ones
included, and the second one begins when all tuples present have been delivered and only reports the
end, whatever is appended.  Every rewind of an open buffer begins a new stretch, and a closed buffer
refuses to be read for good (`reads_of_history`).
-/

namespace IndexScan.Buffer

/-! ### Histories -/

/-- A call that may change a buffer. -/
inductive Call
  | next
  | reset
  | push (t : Tuple)
  | replace (ts : List Tuple)
  | close

/-- The buffer after a call. -/
def apply (b : Buffer) : Call → Buffer
  | .next => b.next.2
  | .reset => b.reset.2
  | .push t => b.push t
  | .replace ts => b.replace ts
  | .close => b.close

def after (b : Buffer) (calls : List Call) : Buffer := calls.foldl apply b

namespace Call

def isNext : Call → Bool
  | next => true
  | _ => false

/-- Whether the call is one of a stretch between two rewinds. -/
def goesOn : Call → Bool
  | next | push _ => true
  | _ => false

def closes : Call → Bool
  | close => true
  | _ => false

/-- The tuples that a call leaves in a buffer. -/
def record (rows : List Tuple) : Call → List Tuple
  | next | reset => rows
  | push t => rows ++ [t]
  | replace ts => ts
  | close => []

end Call

def contents (rows : List Tuple) (calls : List Call) : List Tuple := calls.foldl Call.record rows

/-- What the moves to the next tuple are answered, each with the tuple that is current after it. -/
def heard (b : Buffer) : List Call → List (Except Error Bool × Tuple)
  | [] => []
  | .next :: calls => (b.next.1, b.next.2.current) :: heard b.next.2 calls
  | c :: calls => heard (b.apply c) calls

variable {b : Buffer} {rows : List Tuple} {n : Nat}

/-- The reader is still to report the end, after it has delivered so many tuples of those given. -/
structure Reading (b : Buffer) (rows : List Tuple) (n : Nat) : Prop where
  rows_eq : b.rows = rows
  reader_eq : b.reader = .delivered n
  le_length : n ≤ rows.length

/-! ### The end -/

theorem ended_apply (h : b.reader = .ended) {c : Call} (hc : c.goesOn = true) :
    (b.apply c).reader = .ended := by
  cases c with
  | next =>
    rw [apply, next, h]
    exact h
  | push t => exact h
  | _ => cases hc

theorem current_of_ended (h : b.reader = .ended) : b.current = [] := by rw [current, h]

/-- A reader that has met the end stays there, whatever is appended. -/
theorem heard_of_ended {calls : List Call} (h : b.reader = .ended)
    (hCalls : ∀ c ∈ calls, c.goesOn = true) :
    b.heard calls = List.replicate (calls.countP Call.isNext) (.ok false, []) ∧
      (b.after calls).reader = .ended := by
  induction calls generalizing b with
  | nil => exact ⟨rfl, h⟩
  | cons c calls ih =>
    obtain ⟨hc, hRest⟩ := List.forall_mem_cons.1 hCalls
    obtain ⟨hHeard, hLast⟩ := ih (ended_apply h hc) hRest
    refine ⟨?_, hLast⟩
    cases c with
    | next =>
      have hAnswer : (b.next.1, b.next.2.current) = (.ok false, []) := by simp [next, current, h]
      rw [heard, hAnswer, List.countP_cons_of_pos rfl, List.replicate_succ]
      exact congrArg _ hHeard
    | push t => exact hHeard
    | _ => cases hc

/-! ### Stretches -/

namespace Reading

/-- The current tuple is the one delivered last. -/
theorem current_eq (h : b.Reading rows n) : b.current = (rows.take n).getLast?.getD [] := by
  obtain ⟨hRows, hReader, hn⟩ := h
  cases n with
  | zero => rw [current, hReader, List.take_zero, List.getLast?_nil, Option.getD_none]
  | succ n =>
    have hCurrent : b.current = rows.getD n [] := by rw [current, hReader, hRows]
    rw [hCurrent, List.getD_eq_getElem?_getD, List.getLast?_take, if_neg (Nat.succ_ne_zero n),
      Nat.add_sub_cancel, List.getElem?_eq_getElem hn, Option.some_or]

theorem next_of_lt (h : b.Reading rows n) (hMore : n < rows.length) :
    b.next = (.ok true, b.next.2) ∧ b.next.2.Reading rows (n + 1) := by
  obtain ⟨hRows, hReader, hn⟩ := h
  subst hRows
  rw [next, hReader]
  simp only [hMore, if_true]
  exact ⟨trivial, rfl, rfl, hMore⟩

theorem next_of_eq (h : b.Reading rows n) (hEnd : n = rows.length) :
    b.next = (.ok false, b.next.2) ∧ b.next.2.reader = .ended := by
  obtain ⟨hRows, hReader, hn⟩ := h
  subst hRows
  subst hEnd
  rw [next, hReader]
  simp only [Nat.lt_irrefl, if_false]
  exact ⟨trivial, trivial⟩

theorem push (h : b.Reading rows n) (t : Tuple) : (b.push t).Reading (rows ++ [t]) n := by
  refine ⟨congrArg (· ++ [t]) h.rows_eq, h.reader_eq, ?_⟩
  rw [List.length_append]
  exact Nat.le_add_right_of_le h.le_length

end Reading

/-- Nothing is taken away between two rewinds. -/
theorem prefix_contents {calls : List Call} (hCalls : ∀ c ∈ calls, c.goesOn = true) :
    rows <+: contents rows calls := by
  induction calls generalizing rows with
  | nil => exact List.prefix_rfl
  | cons c calls ih =>
    obtain ⟨hc, hRest⟩ := List.forall_mem_cons.1 hCalls
    cases c with
    | next => exact ih hRest
    | push t => exact (List.prefix_append rows [t]).trans (ih hRest)
    | _ => cases hc

/-- A stretch of calls is told apart at the first move that finds no tuple. -/
theorem Reading.exists_lead {calls : List Call} (h : b.Reading rows n)
    (hCalls : ∀ c ∈ calls, c.goesOn = true) : ∃ lead rest, calls = lead ++ rest ∧
      b.heard lead = (((contents rows lead).drop n).take (lead.countP Call.isNext)).map
        (.ok true, ·) ∧
      (b.after lead).Reading (contents rows lead) (n + lead.countP Call.isNext) ∧
      (rest ≠ [] → rest.head? = some .next ∧
        n + lead.countP Call.isNext = (contents rows lead).length) := by
  induction calls generalizing b rows n with
  | nil => exact ⟨[], [], rfl, by rw [List.countP_nil, List.take_zero]; rfl, h, fun h => absurd rfl h⟩
  | cons c calls ih =>
    obtain ⟨hc, hRest⟩ := List.forall_mem_cons.1 hCalls
    cases c with
    | push t =>
      obtain ⟨lead, rest, rfl, hHeard, hReading, hEnd⟩ := ih (h.push t) hRest
      exact ⟨.push t :: lead, rest, rfl, hHeard, hReading, hEnd⟩
    | next =>
      rcases Nat.lt_or_eq_of_le h.le_length with hMore | hEnd
      · obtain ⟨hNext, hReading'⟩ := h.next_of_lt hMore
        obtain ⟨lead, rest, rfl, hHeard, hReading, hEnd⟩ := ih hReading' hRest
        have hCount : n + (Call.next :: lead).countP Call.isNext
            = n + 1 + lead.countP Call.isNext := by
          rw [List.countP_cons_of_pos rfl]
          omega
        refine ⟨.next :: lead, rest, rfl, ?_, hCount ▸ hReading, hCount ▸ hEnd⟩
        -- the tuple delivered now is still in its place at the end of the stretch
        have hKept : rows <+: contents rows lead :=
          prefix_contents fun c hc => hRest c (List.mem_append_left _ hc)
        have hThere : n < (contents rows lead).length :=
          Nat.lt_of_lt_of_le hMore hKept.length_le
        have hHead : rows[n] = (contents rows lead)[n] := hKept.getElem hMore
        have hCurrent : b.next.2.current = rows[n] := by
          rw [hReading'.current_eq, List.getLast?_take, if_neg (Nat.succ_ne_zero n),
            Nat.add_sub_cancel, List.getElem?_eq_getElem hMore]
          rfl
        have hContents : contents rows (.next :: lead) = contents rows lead := rfl
        rw [heard, hHeard, hNext, hCurrent, hContents, List.countP_cons_of_pos rfl,
          List.drop_eq_getElem_cons hThere, ← hHead]
        rfl
      · refine ⟨[], .next :: calls, rfl, ?_, h, fun _ => ⟨rfl, hEnd⟩⟩
        rw [List.countP_nil, List.take_zero]
        rfl
    | _ => cases hc

/-- A stretch of calls in two parts, where the second part, if there is one, begins with the report
of the end. -/
structure Parts (b : Buffer) (rows : List Tuple) (lead rest : List Call) : Prop where
  heard_lead : b.heard lead
    = ((contents rows lead).take (lead.countP Call.isNext)).map (.ok true, ·)
  le_length : lead.countP Call.isNext ≤ (contents rows lead).length
  current_lead : (b.after lead).current
    = ((contents rows lead).take (lead.countP Call.isNext)).getLast?.getD []
  head_rest : rest ≠ [] →
    rest.head? = some .next ∧ lead.countP Call.isNext = (contents rows lead).length
  heard_rest : (b.after lead).heard rest
    = List.replicate (rest.countP Call.isNext) (.ok false, [])
  current_rest : rest ≠ [] → (b.after (lead ++ rest)).current = []

/-- However it is read on and appended to, the buffer delivers the tuples present from the first one
on, each once, and then reports the end. -/
def Reads (b : Buffer) (rows : List Tuple) : Prop :=
  ∀ calls : List Call, (∀ c ∈ calls, c.goesOn = true) →
    ∃ lead rest, calls = lead ++ rest ∧ b.Parts rows lead rest

/-- When all tuples have been delivered, the next move reports the end, and so do all after it. -/
theorem Reading.heard_of_eq {calls : List Call} (h : b.Reading rows n) (hEnd : n = rows.length)
    (hFirst : calls.head? = some .next) (hCalls : ∀ c ∈ calls, c.goesOn = true) :
    b.heard calls = List.replicate (calls.countP Call.isNext) (.ok false, []) ∧
      (b.after calls).current = [] := by
  obtain ⟨later, rfl⟩ := List.head?_eq_some_iff.1 hFirst
  obtain ⟨hNext, hEnded⟩ := h.next_of_eq hEnd
  obtain ⟨hHeard, hLast⟩ := heard_of_ended hEnded (List.forall_mem_cons.1 hCalls).2
  refine ⟨?_, current_of_ended hLast⟩
  rw [heard, hNext, current_of_ended hEnded, hHeard, List.countP_cons_of_pos rfl,
    List.replicate_succ]

theorem Reading.reads (h : b.Reading rows 0) : b.Reads rows := by
  intro calls hCalls
  obtain ⟨lead, rest, rfl, hHeard, hReading, hEnd⟩ := h.exists_lead hCalls
  rw [Nat.zero_add] at hReading hEnd
  have hRest : ∀ c ∈ rest, c.goesOn = true := fun c hc => hCalls c (List.mem_append_right _ hc)
  refine ⟨lead, rest, rfl, hHeard, hReading.le_length, hReading.current_eq, hEnd, ?_, fun hSome => ?_⟩
  · by_cases hNone : rest = []
    · rw [hNone]
      rfl
    · obtain ⟨hFirst, hAll⟩ := hEnd hNone
      exact (hReading.heard_of_eq hAll hFirst hRest).1
  · obtain ⟨hFirst, hAll⟩ := hEnd hSome
    rw [after, List.foldl_append]
    exact (hReading.heard_of_eq hAll hFirst hRest).2

/-! ### Rewinds -/

/-- What a buffer holds is told by the calls alone. -/
theorem rows_after (b : Buffer) (calls : List Call) :
    (b.after calls).rows = contents b.rows calls := by
  induction calls generalizing b with
  | nil => rfl
  | cons c calls ih =>
    have hRows : (b.apply c).rows = c.record b.rows := by
      cases c with
      | next =>
        rw [apply, next]
        split
        · rfl
        · rfl
        · split <;> rfl
      | reset =>
        rw [apply, reset]
        split <;> rfl
      | _ => rfl
    exact (ih _).trans (congrArg (contents · calls) hRows)

theorem isClosed_apply (b : Buffer) (c : Call) :
    (b.apply c).isClosed = (b.isClosed || c.closes) := by
  cases c with
  | next =>
    have hStays : Call.next.closes = false := rfl
    rw [hStays, Bool.or_false, apply, next]
    split
    · rfl
    · rfl
    · next n hReader =>
      have hOpen : b.isClosed = false := by rw [isClosed, hReader]; rfl
      rw [hOpen]
      split <;> rfl
  | reset =>
    rw [apply, reset]
    cases hClosed : b.isClosed with
    | true => exact hClosed
    | false => rfl
  | push t => exact (Bool.or_false _).symm
  | replace ts =>
    rw [apply, replace]
    cases b.isClosed <;> rfl
  | close => exact (Bool.or_true _).symm

/-- A buffer is closed when one of the calls has closed it. -/
theorem isClosed_after (b : Buffer) (calls : List Call) :
    (b.after calls).isClosed = (b.isClosed || calls.any Call.closes) := by
  induction calls generalizing b with
  | nil => exact (Bool.or_false _).symm
  | cons c calls ih =>
    rw [List.any_cons, ← Bool.or_assoc, ← isClosed_apply]
    exact ih _

theorem reset_of_open (hOpen : b.isClosed = false) :
    b.reset = (.ok (), { b with reader := .delivered 0 }) := by
  rw [reset, hOpen]
  rfl

theorem replace_of_open (hOpen : b.isClosed = false) (ts : List Tuple) :
    b.replace ts = { b with rows := ts, reader := .delivered 0 } := by
  rw [replace, hOpen]
  rfl

/-- A closed buffer can neither be read nor rewound. -/
structure Refuses (b : Buffer) : Prop where
  next_eq : b.next = (.error (.internal "read from a closed result"), b)
  reset_eq : b.reset = (.error (.internal "reset of a closed result"), b)
  current_eq : b.current = []

theorem refuses_of_isClosed (h : b.isClosed = true) : b.Refuses := by
  have hReader : b.reader = .closed := beq_iff_eq.1 h
  refine ⟨?_, ?_, ?_⟩
  · rw [next, hReader]
  · rw [reset, h]
    rfl
  · rw [current, hReader]

/-- A new buffer is read from its first tuple on, and so is one that is rewound after any calls, by
`reset` with the tuples that the calls have left, or by `replace`.  After it is closed, a buffer
refuses to be read whatever is called. -/
theorem reads_of_history (width : Nat) (rows : List Tuple) {before : List Call}
    (hOpen : .close ∉ before) :
    let new : Buffer := { width, rows }
    new.Reads rows ∧
      ((new.after before).reset.1 = .ok () ∧
        (new.after before).reset.2.Reads (contents rows before)) ∧
      (∀ ts, ((new.after before).replace ts).Reads ts) ∧
      ∀ later, ((new.after before).close.after later).Refuses := by
  intro new
  have hNone : before.any Call.closes = false := by
    refine List.any_eq_false.2 fun c hc hCloses => hOpen ?_
    cases c <;> first | exact hc | cases hCloses
  have hAfter : (new.after before).isClosed = false := by
    rw [isClosed_after, hNone]
    rfl
  refine ⟨Reading.reads ⟨rfl, rfl, Nat.zero_le _⟩, ⟨?_, Reading.reads ?_⟩,
    fun ts => Reading.reads ?_, fun later => refuses_of_isClosed ?_⟩
  · rw [reset_of_open hAfter]
  · rw [reset_of_open hAfter]
    exact ⟨rows_after new before, rfl, Nat.zero_le _⟩
  · rw [replace_of_open hAfter]
    exact ⟨rfl, rfl, Nat.zero_le _⟩
  · rw [isClosed_after]
    rfl

/-- A tuple that is appended after the end has been met comes with the next rewind. -/
theorem reads_of_late_tuple :
    let b := ({ width := 1, rows := [[.int64 1]] } : Buffer).after
      [.next, .next, .push [.int64 2], .next]
    b.reset.1 = .ok () ∧ b.reset.2.Reads [[.int64 1], [.int64 2]] ∧
      (b.replace [[.int64 3]]).Reads [[.int64 3]] ∧
      (b.close.after [.push [.int64 4], .replace [[.int64 5]], .reset]).Refuses := by
  obtain ⟨-, ⟨hReset, hReads⟩, hReplace, hClosed⟩ := @reads_of_history 1 [[.int64 1]]
    [.next, .next, .push [.int64 2], .next] (by simp)
  exact ⟨hReset, hReads, hReplace _, hClosed _⟩

end IndexScan.Buffer

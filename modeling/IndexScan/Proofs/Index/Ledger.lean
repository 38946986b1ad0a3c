import Mathlib.Data.List.Nodup
import IndexScan.Index.Stored

/-!
# The ledger of an index

What an index that stores rows is meant to hold, told by the calls alone: a list of rows in the
order in which they came.  A row is entered at the end if it fits the table, its identity is not
taken, and its key is not taken in a unique index; all other insertions change nothing.  A row store
keeps a ledger if it finds by identity what the ledger lists.
-/

namespace IndexScan

theorem isOk_iff {ε : Type} {x : Except ε Unit} : x.isOk = true ↔ x = .ok () := by
  cases x with
  | error e => exact iff_of_false nofun nofun
  | ok _ => exact iff_of_true rfl rfl

/-! ### Calls -/

/-- A call of a cursor. -/
inductive Move
  | next
  | previous
  deriving DecidableEq, Repr

namespace Index

variable {ι : Type} [Index ι]

def move (ix : ι) (c : Cursor ι) : Move → Traced (Except Error Bool × Cursor ι × ι)
  | .next => next ix c
  | .previous => previous ix c

/-- What the moves of a cursor answer, each with the place that it leads to. -/
def travel (ix : ι) (c : Cursor ι) : List Move → Traced (List (Except Error Bool × Place Row) × ι)
  | [] => pure ([], ix)
  | m :: ms => do
    let (answer, c, ix) ← move ix c m
    let (answers, ix) ← travel ix c ms
    return ((answer, place c) :: answers, ix)

/-- The same with the cursor as it is after the moves. -/
def journey (ix : ι) (c : Cursor ι) :
    List Move → Traced (List (Except Error Bool × Place Row) × Cursor ι × ι)
  | [] => pure ([], c, ix)
  | m :: ms => do
    let (answer, c, ix) ← move ix c m
    let (answers, last, ix) ← journey ix c ms
    return ((answer, place c) :: answers, last, ix)

section

variable {ix ix' ix'' : ι} {c c' last : Cursor ι} {m : Move} {ms ms' : List Move}
  {answer : Except Error Bool} {answers answers' : List (Except Error Bool × Place Row)}

theorem travel_eq_journey (ix : ι) (c : Cursor ι) (ms : List Move) :
    (travel ix c ms).result = ((journey ix c ms).result.1, (journey ix c ms).result.2.2) := by
  induction ms generalizing ix c with
  | nil => rfl
  | cons m ms ih =>
    rw [travel, journey, Traced.result_bind, Traced.result_bind, Traced.result_bind, ih]
    rfl

theorem journey_cons {events events' : List Event}
    (hMove : move ix c m = ⟨(answer, c', ix'), events⟩)
    (hJourney : journey ix' c' ms = ⟨(answers, last, ix''), events'⟩) :
    journey ix c (m :: ms) = ⟨((answer, place c') :: answers, last, ix''), events ++ events'⟩ := by
  rw [journey, hMove]
  refine Traced.ext ?_ ?_
  · simp only [Traced.result_bind, hJourney, Traced.result_pure]
  · simp only [Traced.events_bind, hJourney, Traced.events_pure, List.append_nil]

theorem result_journey_cons (hMove : (move ix c m).result = (answer, c', ix'))
    (hJourney : (journey ix' c' ms).result = (answers, last, ix'')) :
    (journey ix c (m :: ms)).result = ((answer, place c') :: answers, last, ix'') := by
  rw [journey, Traced.result_bind, hMove, Traced.result_bind, hJourney]
  rfl

theorem result_journey_append (h : (journey ix c ms).result = (answers, c', ix'))
    (h' : (journey ix' c' ms').result = (answers', last, ix'')) :
    (journey ix c (ms ++ ms')).result = (answers ++ answers', last, ix'') := by
  induction ms generalizing ix c answers with
  | nil =>
    cases h
    exact h'
  | cons m ms ih =>
    rw [journey, Traced.result_bind, Traced.result_bind] at h
    cases h
    exact result_journey_cons rfl (ih rfl)

end

/-- The index after a cursor has been opened and moved. -/
def visit (ix : ι) (lower upper : Option Bound) (ms : List Move) : Traced ι := do
  match ← scan ix lower upper with
  | (.error _, ix) => return ix
  | (.ok c, ix) =>
    let (_, ix) ← travel ix c ms
    return ix

/-- What a scan and the moves of its cursor answer. -/
def visited (ix : ι) (lower upper : Option Bound) (ms : List Move) :
    Except Error (List (Except Error Bool × Place Row)) :=
  match (scan ix lower upper).result with
  | (.error e, _) => .error e
  | (.ok c, ix) => .ok (travel ix c ms).result.1

end Index

/-- A call of an index that stores rows. -/
inductive Operation
  | insert (r : Row)
  | erase (id : RowId)
  | visit (lower upper : Option Bound) (moves : List Move)

/-- The answer to a call. -/
inductive Reply
  | inserted (result : Except Error Unit)
  | erased (row : Option Row)
  | visited (answers : Except Error (List (Except Error Bool × Place Row)))

/-- The index after a call, whether the call fails or not. -/
def StoredIndex.apply {ι : Type} [StoredIndex ι] (ix : ι) : Operation → ι
  | .insert r => (insert ix r).2
  | .erase id => (erase ix id).2
  | .visit lower upper moves => (Index.visit ix lower upper moves).result

/-- The index after calls. -/
def StoredIndex.after {ι : Type} [StoredIndex ι] (ix : ι) (ops : List Operation) : ι :=
  ops.foldl apply ix

def StoredIndex.reply {ι : Type} [StoredIndex ι] (ix : ι) : Operation → Reply
  | .insert r => .inserted (insert ix r).1
  | .erase id => .erased (erase ix id).1
  | .visit lower upper moves => .visited (Index.visited ix lower upper moves)

/-- The answers to calls in a row. -/
def StoredIndex.replies {ι : Type} [StoredIndex ι] (ix : ι) : List Operation → List Reply
  | [] => []
  | op :: ops => reply ix op :: replies (apply ix op) ops

/-! ### Ledgers -/

/-- What decides which rows an index takes. -/
structure Filing where
  table : Table
  order : RowOrder
  unique : Bool

namespace Filing

def accepts (f : Filing) (log : List Row) (r : Row) : Bool :=
  (f.table.validate r).isOk && !log.any (·.id == r.id) &&
    !(f.unique && log.any (f.order.keyOf · == f.order.keyOf r))

/-- Why a row is refused, if it is: the first of the three checks that fails. -/
def refusal (f : Filing) (index : String) (log : List Row) (r : Row) : Option Error :=
  match f.table.validate r with
  | .error e => some e
  | .ok _ =>
    if log.any (·.id == r.id) then
      some (.internal s!"row {r.id} already stored in index {index}")
    else if f.unique && log.any (f.order.keyOf · == f.order.keyOf r) then
      some (.duplicateKey index (keyValue (f.order.keyOf r)))
    else none

/-- The ledger after a call. -/
def record (f : Filing) (log : List Row) : Operation → List Row
  | .insert r => if f.accepts log r then log ++ [r] else log
  | .erase id => log.filter (·.id != id)
  | .visit .. => log

/-- The ledger of a history that begins with an empty index. -/
def ledger (f : Filing) (ops : List Operation) : List Row := ops.foldl f.record []

theorem accepts_iff {f : Filing} {index : String} {log : List Row} {r : Row} :
    f.accepts log r = true ↔ f.refusal index log r = none := by
  rw [accepts, refusal]
  cases f.table.validate r with
  | error e => exact iff_of_false nofun nofun
  | ok _ =>
    cases log.any (·.id == r.id) with
    | true => exact iff_of_false nofun nofun
    | false =>
      cases f.unique && log.any (f.order.keyOf · == f.order.keyOf r) with
      | true => exact iff_of_false nofun nofun
      | false => exact iff_of_true rfl rfl

/-- A row that is taken and goes again leaves no trace. -/
theorem erase_insert {log : List Row} {r : Row} (hNew : log.any (·.id == r.id) = false) :
    (log ++ [r]).filter (·.id != r.id) = log := by
  have hOthers : log.filter (·.id != r.id) = log := by
    refine List.filter_eq_self.2 fun q hq => ?_
    simpa using List.any_eq_false.1 hNew q hq
  rw [List.filter_append, hOthers]
  simp

end Filing

namespace RowStore

/-- The rows of the store are those of a ledger, in which no identity occurs twice. -/
structure Keeps (s : RowStore) (log : List Row) : Prop where
  row?_eq : ∀ id, s.row? id = log.find? (·.id == id)
  nodup : (log.map Row.id).Nodup

variable {s : RowStore} {log : List Row}

theorem keeps_empty (index : String) (t : Table) : RowStore.Keeps { index, table := t } [] :=
  ⟨fun _ => Std.HashMap.getElem?_empty, List.nodup_nil⟩

theorem Keeps.row?_eq_none (h : s.Keeps log) {id : RowId} :
    s.row? id = none ↔ log.any (·.id == id) = false := by
  rw [h.row?_eq, List.find?_eq_none, List.any_eq_false]

theorem Keeps.row?_eq_some (h : s.Keeps log) {id : RowId} {r : Row} (hr : s.row? id = some r) :
    r ∈ log ∧ r.id = id := by
  rw [h.row?_eq] at hr
  have hId := List.find?_some hr
  exact ⟨List.mem_of_find?_eq_some hr, by simpa using hId⟩

theorem Keeps.row?_of_mem (h : s.Keeps log) {r : Row} (hr : r ∈ log) : s.row? r.id = some r := by
  cases hFind : s.row? r.id with
  | none =>
    have := List.any_eq_false.1 (h.row?_eq_none.1 hFind) r hr
    simp at this
  | some q =>
    obtain ⟨hq, hId⟩ := h.row?_eq_some hFind
    rw [List.inj_on_of_nodup_map h.nodup hq hr hId]

theorem Keeps.insert (h : s.Keeps log) {r : Row} (hNew : log.any (·.id == r.id) = false) :
    (s.insert r).Keeps (log ++ [r]) := by
  refine ⟨fun id => ?_, ?_⟩
  · have hOld := h.row?_eq id
    rw [row?] at hOld
    rw [row?, RowStore.insert, Std.HashMap.getElem?_insert, List.find?_append, hOld]
    by_cases hId : r.id = id
    · rw [if_pos (by simpa using hId), ← hId, List.find?_eq_none.2 (List.any_eq_false.1 hNew)]
      simp
    · rw [if_neg (by simpa using hId)]
      simp [hId]
  · rw [List.map_append, List.nodup_append]
    refine ⟨h.nodup, List.nodup_singleton _, fun id hid id' hid' hEq => ?_⟩
    obtain ⟨q, hq, rfl⟩ := List.mem_map.1 hid
    obtain rfl := List.mem_singleton.1 hid'
    exact List.any_eq_false.1 hNew q hq (beq_iff_eq.2 hEq)

theorem Keeps.erase (h : s.Keeps log) (id : RowId) :
    (s.erase id).Keeps (log.filter (·.id != id)) := by
  refine ⟨fun j => ?_, ?_⟩
  · have hOld := h.row?_eq j
    rw [row?] at hOld
    rw [row?, RowStore.erase, Std.HashMap.getElem?_erase, List.find?_filter, hOld]
    by_cases hId : id = j
    · rw [if_pos (by simpa using hId), hId]
      refine (List.find?_eq_none.2 fun r _ => ?_).symm
      simp
    · rw [if_neg (by simpa using hId)]
      congr 1
      funext r
      by_cases hr : r.id = j
      · simp [hr, Ne.symm hId]
      · simp [hr]
  · exact h.nodup.sublist (List.filter_sublist.map Row.id)

theorem Keeps.check_eq (h : s.Keeps log) (r : Row) :
    s.check r = match s.table.validate r with
      | .error e => .error e
      | .ok _ =>
        if log.any (·.id == r.id) then
          .error (.internal s!"row {r.id} already stored in index {s.index}")
        else .ok () := by
  have hTaken : s.rows.contains r.id = log.any (·.id == r.id) := by
    have hOld := h.row?_eq r.id
    rw [row?] at hOld
    rw [Std.HashMap.contains_eq_isSome_getElem?, hOld, List.isSome_find?]
  rw [check, hTaken]
  cases s.table.validate r <;> rfl

/-- Rows of the ledger are found by their identities. -/
theorem Keeps.mapM_require (h : s.Keeps log) {rows : List Row} (hRows : ∀ r ∈ rows, r ∈ log) :
    (rows.map Row.id).mapM s.require = .ok rows := by
  induction rows with
  | nil => rfl
  | cons r rows ih =>
    obtain ⟨hr, hRest⟩ := List.forall_mem_cons.1 hRows
    rw [List.map_cons, List.mapM_cons, ih hRest, require, h.row?_of_mem hr]
    rfl

theorem Keeps.toList_perm (h : s.Keeps log) :
    s.rows.toList.Perm (log.map fun r => (r.id, r)) := by
  refine (List.perm_ext_iff_of_nodup ?_ ?_).2 fun x => ?_
  · exact Std.HashMap.distinct_keys_toList.imp fun hDistinct hSame => by simp [hSame] at hDistinct
  · refine List.Nodup.of_map Prod.fst ?_
    rw [List.map_map]
    exact h.nodup
  · rw [Std.HashMap.mem_toList_iff_getElem?_eq_some, List.mem_map]
    constructor
    · intro hx
      obtain ⟨hr, hId⟩ := h.row?_eq_some hx
      exact ⟨x.2, hr, Prod.ext hId rfl⟩
    · rintro ⟨r, hr, rfl⟩
      exact h.row?_of_mem hr

theorem Keeps.size_eq (h : s.Keeps log) : s.size = log.length := by
  rw [size, ← Std.HashMap.length_toList, h.toList_perm.length_eq, List.length_map]

end RowStore

/-! ### Indexes that keep a ledger -/

namespace StoredIndex

variable {ι : Type} [StoredIndex ι]

/-- A relation between indexes and ledgers that every call keeps, and under which insertions and
removals answer as the ledger tells. -/
structure Follows (f : Filing) (index : String) (H : ι → List Row → Prop) : Prop where
  nodup {ix log} : H ix log → (log.map Row.id).Nodup
  size_eq {ix log} : H ix log → size ix = log.length
  totalRows_eq {ix log} : H ix log → (Index.stats ix).totalRows = .ofNat log.length
  exists_insert {ix log} : H ix log → ∀ {r}, f.refusal index log r = none →
    ∃ ix', insert ix r = (.ok (), ix') ∧ H ix' (log ++ [r])
  insert_refused {ix log} : H ix log → ∀ {r e}, f.refusal index log r = some e →
    insert ix r = (.error e, ix)
  erase {ix log} : H ix log → ∀ id, (erase ix id).1 = log.find? (·.id == id) ∧
    H (erase ix id).2 (log.filter (·.id != id))
  visit {ix log} : H ix log → ∀ lower upper ms, H (Index.visit ix lower upper ms).result log

namespace Follows

variable {f : Filing} {index : String} {H : ι → List Row → Prop} {ix ix' : ι} {log : List Row}
  {r : Row}

/-- Every call leads from an index that keeps a ledger to one that keeps the next ledger. -/
theorem apply (h : Follows f index H) (hH : H ix log) (op : Operation) :
    H (StoredIndex.apply ix op) (f.record log op) := by
  cases op with
  | insert r =>
    rw [Filing.record, StoredIndex.apply]
    cases hRefusal : f.refusal index log r with
    | none =>
      obtain ⟨ix', hInsert, hNext⟩ := h.exists_insert hH hRefusal
      rw [if_pos (Filing.accepts_iff.2 hRefusal), hInsert]
      exact hNext
    | some e =>
      have hRefused : ¬ f.accepts log r = true := fun hAccepts => by
        rw [Filing.accepts_iff.1 hAccepts] at hRefusal
        cases hRefusal
      rw [if_neg hRefused, h.insert_refused hH hRefusal]
      exact hH
  | erase id => exact (h.erase hH id).2
  | visit lower upper ms => exact h.visit hH lower upper ms

/-- Every history of calls leads to an index that keeps the ledger of the history. -/
theorem after (h : Follows f index H) (hH : H ix log) (ops : List Operation) :
    H (StoredIndex.after ix ops) (ops.foldl f.record log) := by
  induction ops generalizing ix log with
  | nil => exact hH
  | cons op ops ih => exact ih (h.apply hH op)

theorem insert_eq_ok_iff (h : Follows f index H) (hH : H ix log) :
    (insert ix r).1 = .ok () ↔ f.refusal index log r = none := by
  cases hRefusal : f.refusal index log r with
  | none =>
    obtain ⟨ix', hInsert, -⟩ := h.exists_insert hH hRefusal
    rw [hInsert]
    exact iff_of_true rfl rfl
  | some e =>
    rw [h.insert_refused hH hRefusal]
    exact iff_of_false nofun nofun

theorem insert_eq_error_iff (h : Follows f index H) (hH : H ix log) {e : Error} :
    (insert ix r).1 = .error e ↔ f.refusal index log r = some e := by
  cases hRefusal : f.refusal index log r with
  | none =>
    obtain ⟨ix', hInsert, -⟩ := h.exists_insert hH hRefusal
    rw [hInsert]
    exact iff_of_false nofun nofun
  | some e' =>
    rw [h.insert_refused hH hRefusal, Except.error.injEq, Option.some.injEq]

/-- A call that fails leaves the index as it is. -/
theorem refused (h : Follows f index H) (hH : H ix log) {e : Error}
    (hRefused : (insert ix r).1 = .error e) : (insert ix r).2 = ix := by
  rw [h.insert_refused hH ((h.insert_eq_error_iff hH).1 hRefused)]

/-- A row that is taken is given back as it is, and then the ledger is what it was. -/
theorem undo (h : Follows f index H) (hH : H ix log) (hInsert : insert ix r = (.ok (), ix')) :
    (StoredIndex.erase ix' r.id).1 = some r ∧ H (StoredIndex.erase ix' r.id).2 log := by
  have hRefusal := (h.insert_eq_ok_iff hH).1 (congrArg Prod.fst hInsert)
  have hNew : log.any (·.id == r.id) = false := by
    have hAccepts := Filing.accepts_iff.2 hRefusal
    simp only [Filing.accepts, Bool.and_eq_true, Bool.not_eq_true'] at hAccepts
    exact hAccepts.1.2
  obtain ⟨ix'', hInsert', hNext⟩ := h.exists_insert hH hRefusal
  obtain rfl := (Prod.mk.inj (hInsert'.symm.trans hInsert)).2
  obtain ⟨hErased, hLast⟩ := h.erase hNext r.id
  rw [Filing.erase_insert hNew] at hLast
  refine ⟨?_, hLast⟩
  rw [hErased, List.find?_append, List.find?_eq_none.2 (List.any_eq_false.1 hNew)]
  simp

/-- Indexes that keep one ledger answer all calls alike, if they do so for scans. -/
theorem replies_congr (h : Follows f index H)
    (hScans : ∀ {ix ix' log}, H ix log → H ix' log → Index.visited ix = Index.visited ix')
    (hH : H ix log) (hH' : H ix' log) (ops : List Operation) :
    replies ix ops = replies ix' ops := by
  induction ops generalizing ix ix' log with
  | nil => rfl
  | cons op ops ih =>
    refine List.cons_eq_cons.2 ⟨?_, ih (h.apply hH op) (h.apply hH' op)⟩
    cases op with
    | insert r =>
      rw [reply, reply]
      cases hRefusal : f.refusal index log r with
      | none =>
        obtain ⟨_, hInsert, -⟩ := h.exists_insert hH hRefusal
        obtain ⟨_, hInsert', -⟩ := h.exists_insert hH' hRefusal
        rw [hInsert, hInsert']
      | some e => rw [h.insert_refused hH hRefusal, h.insert_refused hH' hRefusal]
    | erase id => exact congrArg Reply.erased ((h.erase hH id).1.trans (h.erase hH' id).1.symm)
    | visit lower upper ms => rw [reply, reply, hScans hH hH']

end Follows

end StoredIndex

end IndexScan

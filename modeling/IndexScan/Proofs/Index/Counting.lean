import IndexScan.Proofs.Index.Computed
import IndexScan.Proofs.Index.Hashed
import IndexScan.Proofs.Index.Ordered

/-!
# The counters of an index

Every index counts the scans that it opens and the rows that its cursors arrive at, and one that
stores rows counts them as well.  In any run of calls, with any number of cursors moved in turn, the
first two counters are the numbers of calls that were answered so, and the third one is the number
of rows (`Index.Tallied`).  A call that fails counts nothing.  All three are numbers modulo 2^64.
-/

namespace IndexScan

/-- The counters of scans and of rows given have gone up by so many. -/
structure Stats.Grows (s s' : Stats) (scans rows : Nat) : Prop where
  scans_eq : s'.scans = s.scans + .ofNat scans
  rowsReturned_eq : s'.rowsReturned = s.rowsReturned + .ofNat rows

namespace Stats

theorem grows_of_eq {s s' : Stats} (hScans : s'.scans = s.scans)
    (hRows : s'.rowsReturned = s.rowsReturned) : s.Grows s' 0 0 :=
  ⟨hScans.trans (UInt64.add_zero _).symm, hRows.trans (UInt64.add_zero _).symm⟩

theorem Grows.refl (s : Stats) : s.Grows s 0 0 := grows_of_eq rfl rfl

theorem grows_recordScan (s : Stats) : s.Grows s.recordScan 1 0 :=
  ⟨rfl, (UInt64.add_zero _).symm⟩

theorem grows_recordRow (s : Stats) : s.Grows s.recordRow 0 1 :=
  ⟨(UInt64.add_zero _).symm, rfl⟩

theorem Grows.trans {s s' s'' : Stats} {scans scans' rows rows' : Nat} (h : s.Grows s' scans rows)
    (h' : s'.Grows s'' scans' rows') : s.Grows s'' (scans + scans') (rows + rows') := by
  obtain ⟨hScans, hRows⟩ := h
  obtain ⟨hScans', hRows'⟩ := h'
  refine ⟨?_, ?_⟩
  · rw [hScans', hScans, UInt64.ofNat_add, UInt64.add_assoc]
  · rw [hRows', hRows, UInt64.ofNat_add, UInt64.add_assoc]

end Stats

/-! ### Runs of calls -/

/-- A call of an index, or of one of its cursors, which are numbered in the order of opening.  What
else may happen to an index depends on its kind. -/
inductive Use (ε : Type)
  | scan (lower upper : Option Bound)
  | move (cursor : Nat) (m : Move)
  | change (e : ε)

/-- What a call is answered. -/
inductive Outcome
  | opened (answer : Except Error Unit)
  | moved (answer : Except Error Bool)
  /-- There is no such cursor, or the call is not one that is counted. -/
  | nothing

namespace Outcome

def isOpened : Outcome → Bool
  | opened (.ok _) => true
  | _ => false

def isRow : Outcome → Bool
  | moved (.ok true) => true
  | _ => false

end Outcome

namespace Index

variable {ι ε : Type} [Index ι] (change : ι → ε → ι)

/-- One call, with the cursors that there are afterwards. -/
def use (ix : ι) (cursors : List (Cursor ι)) : Use ε → Outcome × List (Cursor ι) × ι
  | .scan lower upper =>
    let (opened, ix) := (scan ix lower upper).result
    (.opened (opened.map fun _ => ()), cursors ++ opened.toOption.toList, ix)
  | .move n m =>
    match cursors[n]? with
    | none => (.nothing, cursors, ix)
    | some c =>
      let (answer, c, ix) := (move ix c m).result
      (.moved answer, cursors.set n c, ix)
  | .change e => (.nothing, cursors, change ix e)

/-- The answers to calls, and the index after them. -/
def run (ix : ι) (cursors : List (Cursor ι)) : List (Use ε) → List Outcome × ι
  | [] => ([], ix)
  | u :: us =>
    let (answer, cursors, ix) := use change ix cursors u
    let (answers, ix) := run ix cursors us
    (answer :: answers, ix)

/-- Each call counts what it is answered, as long as `H` holds, which it keeps. -/
structure Counts (size : ι → Nat) (H : ι → Prop) : Prop where
  totalRows_eq {ix} : H ix → (stats ix).totalRows = .ofNat (size ix)
  scan {ix} : H ix → ∀ lower upper, H (scan ix lower upper).result.2 ∧
    (stats ix).Grows (stats (scan ix lower upper).result.2)
      (scan ix lower upper).result.1.isOk.toNat 0
  move {ix} : H ix → ∀ c m, H (move ix c m).result.2.2 ∧
    (stats ix).Grows (stats (move ix c m).result.2.2) 0
      (Outcome.moved (move ix c m).result.1).isRow.toNat
  change {ix} : H ix → ∀ e, H (change ix e) ∧ (stats ix).Grows (stats (change ix e)) 0 0

/-- The counters of an index tell what has been answered and how many rows there are. -/
structure Tallied (size : ι → Nat) (x : List Outcome × ι) : Prop where
  scans_eq : (stats x.2).scans = .ofNat (x.1.countP Outcome.isOpened)
  rowsReturned_eq : (stats x.2).rowsReturned = .ofNat (x.1.countP Outcome.isRow)
  totalRows_eq : (stats x.2).totalRows = .ofNat (size x.2)

namespace Counts

variable {change} {size : ι → Nat} {H : ι → Prop} {ix : ι}

theorem use (h : Counts change size H) (hH : H ix) (cursors : List (Cursor ι)) (u : Use ε) :
    H (Index.use change ix cursors u).2.2 ∧
      (stats ix).Grows (stats (Index.use change ix cursors u).2.2)
        (Index.use change ix cursors u).1.isOpened.toNat
        (Index.use change ix cursors u).1.isRow.toNat := by
  cases u with
  | scan lower upper =>
    have hScan := h.scan hH lower upper
    rw [Index.use]
    generalize (Index.scan ix lower upper).result = x at hScan ⊢
    obtain ⟨e | c, ix'⟩ := x
    · exact hScan
    · exact hScan
  | move n m =>
    rw [Index.use]
    cases cursors[n]? with
    | none => exact ⟨hH, .refl _⟩
    | some c => exact h.move hH c m
  | change e => exact h.change hH e

theorem run (h : Counts change size H) (hH : H ix) (cursors : List (Cursor ι))
    (us : List (Use ε)) : H (Index.run change ix cursors us).2 ∧
      (stats ix).Grows (stats (Index.run change ix cursors us).2)
        ((Index.run change ix cursors us).1.countP Outcome.isOpened)
        ((Index.run change ix cursors us).1.countP Outcome.isRow) := by
  induction us generalizing ix cursors with
  | nil => exact ⟨hH, .refl _⟩
  | cons u us ih =>
    obtain ⟨hNext, hUse⟩ := h.use hH cursors u
    obtain ⟨hLast, hRest⟩ := ih hNext (Index.use change ix cursors u).2.1
    refine ⟨hLast, ?_⟩
    have hCount : ∀ (p : Outcome → Bool) (a : Outcome) (as : List Outcome),
        (a :: as).countP p = (p a).toNat + as.countP p := by
      intro p a as
      rw [List.countP_cons, Nat.add_comm]
      cases p a <;> rfl
    rw [Index.run, hCount, hCount]
    exact hUse.trans hRest

/-- The counters of an index that begins with zeros. -/
theorem tallied (h : Counts change size H) (hH : H ix) (hStats : stats ix = {})
    (us : List (Use ε)) : Tallied size (Index.run change ix [] us) := by
  obtain ⟨hLast, hGrows⟩ := h.run hH [] us
  rw [hStats] at hGrows
  refine ⟨?_, ?_, h.totalRows_eq hLast⟩
  · rw [hGrows.scans_eq, UInt64.zero_add]
  · rw [hGrows.rowsReturned_eq, UInt64.zero_add]

end Counts

end Index

/-! ### Stored rows -/

namespace StoredIndex

/-- A call that changes what is stored. -/
inductive Update
  | insert (r : Row)
  | erase (id : RowId)

variable {ι : Type} [StoredIndex ι]

/-- The index after a change, whether the change is refused or not. -/
def update (ix : ι) : Update → ι
  | .insert r => apply ix (.insert r)
  | .erase id => apply ix (.erase id)

/-- A removal takes off the counter of rows what it takes out, which is never more than is there. -/
structure Deducts (ix : ι) (id : RowId) : Prop where
  size_eq : size (erase ix id).2 + (erase ix id).1.toList.length = size ix
  totalRows_eq : (Index.stats (erase ix id).2).totalRows
    = (Index.stats ix).totalRows - .ofNat (erase ix id).1.toList.length
  le_totalRows : size ix < UInt64.size →
    (erase ix id).1.toList.length ≤ (Index.stats ix).totalRows.toNat

end StoredIndex

/-- An identity that occurs once is taken out of a ledger with its row. -/
theorem length_filter_id_bne {log : List Row} (hNodup : (log.map Row.id).Nodup) (id : RowId) :
    (log.filter (·.id != id)).length + (log.find? (·.id == id)).toList.length = log.length := by
  induction log with
  | nil => rfl
  | cons r log ih =>
    obtain ⟨hNew, hRest⟩ := List.nodup_cons.1 hNodup
    by_cases hId : r.id = id
    · subst hId
      have hOthers : log.filter (·.id != r.id) = log := by
        refine List.filter_eq_self.2 fun q hq => ?_
        rw [bne_iff_ne]
        exact fun hSame => hNew (hSame ▸ List.mem_map_of_mem hq)
      rw [List.filter_cons_of_neg (by simp), List.find?_cons_of_pos (by simp), hOthers]
      rfl
    · rw [List.filter_cons_of_pos (by simpa using hId), List.find?_cons_of_neg (by simpa using hId),
        List.length_cons, List.length_cons, ← ih hRest]
      omega

namespace StoredIndex.Follows

variable {ι : Type} [StoredIndex ι] {f : Filing} {index : String} {H : ι → List Row → Prop} {ix : ι}
  {log : List Row}

theorem deducts (h : Follows f index H) (hH : H ix log) (id : RowId) : Deducts ix id := by
  obtain ⟨hErased, hNext⟩ := h.erase hH id
  have hSize : size (StoredIndex.erase ix id).2 + (StoredIndex.erase ix id).1.toList.length
      = size ix := by
    rw [h.size_eq hNext, hErased, h.size_eq hH, length_filter_id_bne (h.nodup hH)]
  have hTotal : (Index.stats ix).totalRows = .ofNat (size ix) := by
    rw [h.totalRows_eq hH, h.size_eq hH]
  refine ⟨hSize, ?_, fun hFits => ?_⟩
  · rw [h.totalRows_eq hNext, ← h.size_eq hNext, hTotal, ← hSize, UInt64.ofNat_add,
      UInt64.add_sub_cancel]
  · rw [hTotal, UInt64.toNat_ofNat_of_lt' hFits, ← hSize]
    exact Nat.le_add_left ..

/-- What is left to tell of an index that keeps a ledger: that the moves of its cursors keep it, and
that nothing but scans and moves touches the counters of scans and of rows given. -/
theorem counts (h : Follows f index H)
    (hTravel : ∀ {ix log}, H ix log → ∀ c ms, H (Index.travel ix c ms).result.2 log)
    (hScan : ∀ {ix log}, H ix log → ∀ lower upper,
      (Index.stats ix).Grows (Index.stats (Index.scan ix lower upper).result.2)
        (Index.scan ix lower upper).result.1.isOk.toNat 0)
    (hMove : ∀ (ix : ι) c m, (Index.stats ix).Grows (Index.stats (Index.move ix c m).result.2.2) 0
      (Outcome.moved (Index.move ix c m).result.1).isRow.toNat)
    (hInsert : ∀ (ix : ι) r, (Index.stats ix).Grows (Index.stats (insert ix r).2) 0 0)
    (hErase : ∀ (ix : ι) id, (Index.stats ix).Grows (Index.stats (StoredIndex.erase ix id).2) 0 0) :
    Index.Counts update size fun ix : ι => ∃ log, H ix log where
  totalRows_eq := by
    rintro ix ⟨log, hH⟩
    rw [h.totalRows_eq hH, h.size_eq hH]
  scan := by
    rintro ix ⟨log, hH⟩ lower upper
    refine ⟨⟨log, ?_⟩, hScan hH lower upper⟩
    have hVisit := h.visit hH lower upper []
    rw [Index.visit, Traced.result_bind] at hVisit
    generalize (Index.scan ix lower upper).result = x at hVisit ⊢
    obtain ⟨e | c, ix'⟩ := x
    · exact hVisit
    · exact hVisit
  move := by
    rintro ix ⟨log, hH⟩ c m
    exact ⟨⟨log, hTravel hH c [m]⟩, hMove ix c m⟩
  change := by
    rintro ix ⟨log, hH⟩ u
    cases u with
    | insert r => exact ⟨⟨_, h.apply hH (.insert r)⟩, hInsert ix r⟩
    | erase id => exact ⟨⟨_, h.apply hH (.erase id)⟩, hErase ix id⟩

theorem tallied (h : Follows f index H)
    (hCounts : Index.Counts update size fun ix : ι => ∃ log, H ix log) (hH : H ix log)
    (hStats : Index.stats ix = {}) (us : List (Use Update)) :
    Index.Tallied size (Index.run update ix [] us) ∧
      ∀ id, Deducts (Index.run update ix [] us).2 id := by
  refine ⟨hCounts.tallied ⟨log, hH⟩ hStats us, fun id => ?_⟩
  obtain ⟨last, hLast⟩ := (hCounts.run ⟨log, hH⟩ [] us).1
  exact h.deducts hLast id

end StoredIndex.Follows

/-! ### Key indexes and row stores -/

theorem KeyTree.grows_insert {κ : Type} {cmp : κ → κ → Ordering} (t : KeyTree κ cmp) (key : κ)
    (id : RowId) : t.stats.Grows (t.insert key id).2.stats 0 0 := by
  rw [insert]
  split <;> exact Stats.grows_of_eq rfl rfl

theorem KeyTable.grows_insert {κ : Type} [BEq κ] [Hashable κ] (t : KeyTable κ) (key : κ)
    (id : RowId) : t.stats.Grows (t.insert key id).2.stats 0 0 := by
  rw [insert]
  split <;> exact Stats.grows_of_eq rfl rfl

theorem KeyTable.grows_erase {κ : Type} [BEq κ] [Hashable κ] (t : KeyTable κ) (key : κ)
    (id? : Option RowId) : t.stats.Grows (t.erase key id?).stats 0 0 := by
  cases id? <;> exact Stats.grows_of_eq rfl rfl

namespace RowFile

variable {K : Type} [KeyIndex K Key]

/-- An insertion touches these counters only through the key index, be it refused or not. -/
theorem grows_insert
    (hKeys : ∀ (keys : K) key id,
      (KeyIndex.stats keys).Grows (KeyIndex.stats (KeyIndex.insert keys key id).2) 0 0)
    (o : RowOrder) (f : RowFile K) (r : Row) :
    (KeyIndex.stats f.keys).Grows (KeyIndex.stats (f.insert o r).2.keys) 0 0 := by
  rw [insert]
  cases f.store.check r with
  | error e => exact .refl _
  | ok _ =>
    have hInsert := hKeys f.keys (o.keyOf r) r.id
    dsimp only
    generalize KeyIndex.insert f.keys (o.keyOf r) r.id = x at hInsert ⊢
    obtain ⟨⟨⟨⟩⟩ | ⟨⟨⟩⟩, keys⟩ := x <;> exact hInsert

theorem grows_erase
    (hKeys : ∀ (keys : K) key id?,
      (KeyIndex.stats keys).Grows (KeyIndex.stats (KeyIndex.erase keys key id?)) 0 0)
    (o : RowOrder) (f : RowFile K) (id : RowId) :
    (KeyIndex.stats f.keys).Grows (KeyIndex.stats (f.erase o id).2.keys) 0 0 := by
  rw [erase]
  cases f.store.row? id with
  | none => exact .refl _
  | some r => exact hKeys ..

end RowFile

/-! ### Ordered indexes -/

namespace OrderedIndex

variable {ix : OrderedIndex}

theorem grows_insert (ix : OrderedIndex) (r : Row) : ix.stats.Grows (ix.insert r).2.stats 0 0 := by
  rw [insert_eq]
  exact RowFile.grows_insert KeyTree.grows_insert ix.order ix.file r

theorem grows_erase (ix : OrderedIndex) (id : RowId) :
    ix.stats.Grows (ix.erase id).2.stats 0 0 := by
  rw [erase_eq]
  exact RowFile.grows_erase (fun _ _ _ => Stats.grows_of_eq rfl rfl) ix.order ix.file id

theorem grows_move (ix : OrderedIndex) (c : OrderedCursor) (m : Move) :
    (Index.stats ix).Grows (Index.stats (Index.move ix c m).result.2.2) 0
      (Outcome.moved (Index.move ix c m).result.1).isRow.toNat := by
  have hCounted : ∀ x, ix.stats.Grows (ix.counted x).2.2.stats 0
      (Outcome.moved (ix.counted x).1).isRow.toNat := by
    rintro ⟨⟨⟩ | ⟨_ | _⟩, c⟩
    · exact .refl _
    · exact .refl _
    · exact ix.stats.grows_recordRow
  cases m with
  | next => exact hCounted (c.next ix)
  | previous => exact hCounted (c.previous ix)

theorem stats_of_create {t : Table} {index : String} {settings : Settings}
    (h : create t index settings = .ok ix) : ix.stats = {} := by
  obtain ⟨d, -, h⟩ := exists_of_bind_eq_ok h
  split at h
  · cases h
  · obtain ⟨o, -, h⟩ := exists_of_bind_eq_ok h
    cases h
    rfl

theorem counts (f : Filing) (index : String) : Index.Counts StoredIndex.update StoredIndex.size
    fun ix : OrderedIndex => ∃ log, ix.Holds log ∧ ix.filing = f ∧ ix.store.index = index := by
  refine (follows f index).counts ?_ (fun {ix _} _ _ _ => ix.stats.grows_recordScan) grows_move
    grows_insert grows_erase
  rintro ix log ⟨h, rfl, rfl⟩ c ms
  exact h.travel c ms

end OrderedIndex

/-! ### Hashed indexes -/

namespace HashedIndex

variable {ix : HashedIndex} {log : List Row}

theorem grows_insert (ix : HashedIndex) (r : Row) : ix.stats.Grows (ix.insert r).2.stats 0 0 := by
  rw [insert_eq]
  exact RowFile.grows_insert KeyTable.grows_insert ix.order ix.file r

theorem grows_erase (ix : HashedIndex) (id : RowId) :
    ix.stats.Grows (ix.erase id).2.stats 0 0 := by
  rw [erase_eq]
  exact RowFile.grows_erase KeyTable.grows_erase ix.order ix.file id

/-- A scan is counted before its rows are looked up, and it does not fail then. -/
theorem Holds.grows_scan (h : ix.Holds log) (lower upper : Option Bound) :
    (Index.stats ix).Grows (Index.stats (Index.scan ix lower upper).result.2)
      (Index.scan ix lower upper).result.1.isOk.toNat 0 := by
  cases hKey : ix.pinnedKey lower upper with
  | error e =>
    rw [scan_of_error hKey]
    exact .refl _
  | ok key =>
    rw [h.scan_of_ok hKey]
    exact ix.stats.grows_recordScan

theorem grows_move (ix : HashedIndex) (c : HashedCursor) (m : Move) :
    (Index.stats ix).Grows (Index.stats (Index.move ix c m).result.2.2) 0
      (Outcome.moved (Index.move ix c m).result.1).isRow.toNat := by
  cases m with
  | next =>
    obtain ⟨_ | ⟨r, waiting⟩, place⟩ := c
    · exact .refl _
    · exact ix.stats.grows_recordRow
  | previous => exact .refl _

theorem stats_of_create {t : Table} {index : String} {settings : Settings}
    (h : create t index settings = .ok ix) : ix.stats = {} := by
  obtain ⟨d, -, h⟩ := exists_of_bind_eq_ok h
  split at h
  · cases h
  · obtain ⟨o, -, h⟩ := exists_of_bind_eq_ok h
    cases h
    rfl

theorem counts (f : Filing) (index : String) : Index.Counts StoredIndex.update StoredIndex.size
    fun ix : HashedIndex => ∃ log, ix.Holds log ∧ ix.filing = f ∧ ix.store.index = index := by
  refine (follows f index).counts ?_ (fun h => h.1.grows_scan) grows_move grows_insert grows_erase
  rintro ix log ⟨h, rfl, rfl⟩ c ms
  exact h.travel c ms

end HashedIndex

/-! ### Computed indexes -/

namespace ComputedIndex

/-- What may happen to a computed index between its scans, and to its working table at any time. -/
inductive Change
  | setQuery (q : Query)
  | invalidate (message : String)
  | close
  | modify (f : WorkingTable → WorkingTable)

/-- The index after a change, whether the change is refused or not. -/
def change (ix : ComputedIndex) : Change → ComputedIndex
  | .setQuery q => (ix.setQuery q).2
  | .invalidate message => (ix.invalidate message).2
  | .close => ix.close.result
  | .modify f => ix.modifyWorking f

theorem stats_modifyWorking (ix : ComputedIndex) (f : WorkingTable → WorkingTable) :
    (ix.modifyWorking f).stats = ix.stats := by
  rw [modifyWorking]
  split <;> rfl

theorem stats_change (ix : ComputedIndex) (e : Change) : (ix.change e).stats = ix.stats := by
  have hSource : ∀ source, (ix.withSource source).2.stats = ix.stats := by
    intro source
    rw [withSource]
    split <;> rfl
  cases e with
  | setQuery q => exact hSource _
  | invalidate message => exact hSource _
  | close =>
    rw [change, close]
    split
    · next w hSource => cases w.inUse <;> rfl
    · rfl
  | modify f => exact ix.stats_modifyWorking f

/-- An opened scan is counted, and no other one. -/
theorem stats_scan (ix : ComputedIndex) (lower upper : Option Bound) :
    (ix.scan lower upper).result.2.stats
      = if (ix.scan lower upper).result.1.isOk then ix.stats.recordScan else ix.stats := by
  rw [scan]
  split
  · next q hSource =>
    rw [Traced.result_bind]
    cases q.execute.result <;> rfl
  · rfl
  · next w hSource =>
    split
    · rfl
    · rw [Traced.result_bind]
      generalize w.evaluator.reset.result = x
      obtain ⟨e | _, evaluator⟩ := x <;> rfl
  · rfl

end ComputedIndex

namespace ComputedCursor

theorem stats_putBack (c : ComputedCursor) (ix : ComputedIndex) (e : Evaluator) :
    (c.putBack ix e).2.stats = ix.stats := by
  rw [putBack]
  cases c.feed with
  | owned e' => rfl
  | shared => exact ix.stats_modifyWorking _

/-- A row that is arrived at is counted, and nothing else. -/
theorem stats_next (c : ComputedCursor) (ix : ComputedIndex) :
    (c.next ix).result.2.2.stats = if (Outcome.moved (c.next ix).result.1).isRow then
      ix.stats.recordRow else ix.stats := by
  rw [next]
  by_cases hEnd : (c.place.isExhausted && !ix.isRecursive) = true
  · rw [if_pos hEnd]
    rfl
  · rw [if_neg hEnd]
    cases c.evaluator ix with
    | error err => rfl
    | ok e =>
      rcases hNext : e.nextRow ix.table.width (ix.order.inRange c.lower c.upper) with
        ⟨err | _ | r, e'⟩
      · simp only [hNext]
        exact c.stats_putBack ix e'
      · simp only [hNext, Traced.result_bind]
        cases (c.finish e').result.1 <;> exact c.stats_putBack ix _
      · simp only [hNext]
        exact congrArg Stats.recordRow (c.stats_putBack ix e')

end ComputedCursor

namespace ComputedIndex

/-- No row is ever counted as stored. -/
theorem counts : Index.Counts change (fun _ => 0) fun ix : ComputedIndex =>
    ix.stats.totalRows = 0 where
  totalRows_eq h := h
  scan := by
    intro ix h lower upper
    have hScan : Index.scan ix lower upper = ix.scan lower upper := rfl
    have hStats : Index.stats (ix.scan lower upper).result.2 = _ := ix.stats_scan lower upper
    rw [hScan, hStats, stats_scan]
    cases (ix.scan lower upper).result.1.isOk with
    | true => exact ⟨h, ix.stats.grows_recordScan⟩
    | false => exact ⟨h, .refl _⟩
  move := by
    intro ix h c m
    cases m with
    | next =>
      have hMove : Index.move ix c .next = ComputedCursor.next c ix := rfl
      have hStats : Index.stats (ComputedCursor.next c ix).result.2.2 = _ :=
        ComputedCursor.stats_next c ix
      rw [hMove, hStats, ComputedCursor.stats_next]
      cases (Outcome.moved (ComputedCursor.next c ix).result.1).isRow with
      | true => exact ⟨h, ix.stats.grows_recordRow⟩
      | false => exact ⟨h, .refl _⟩
    | previous => exact ⟨h, .refl _⟩
  change := by
    intro ix h e
    have hStats : Index.stats (ix.change e) = Index.stats ix := ix.stats_change e
    rw [hStats, stats_change]
    exact ⟨h, .refl _⟩

end ComputedIndex

/-! ### Histories -/

namespace Index

/-- In any run of calls of an index of a declared table, with its cursors moved in turn, the counters
tell the calls that have been answered with a cursor or with a row, and the rows that are stored. -/
theorem tallied_of_history {name index : String} {steps : List Declaration} {t : Table}
    {d : IndexDef} (hTable : Table.declare name steps = .ok t) (hIndex : t.index? index = some d)
    (settings : Settings) :
    (d.type = .btree → ∃ ix, OrderedIndex.create t index settings = .ok ix ∧ ∀ us,
      Tallied StoredIndex.size (run StoredIndex.update ix [] us) ∧
      ∀ id, StoredIndex.Deducts (run StoredIndex.update ix [] us).2 id) ∧
    (d.type = .hash → ∃ ix, HashedIndex.create t index settings = .ok ix ∧ ∀ us,
      Tallied StoredIndex.size (run StoredIndex.update ix [] us) ∧
      ∀ id, StoredIndex.Deducts (run StoredIndex.update ix [] us).2 id) ∧
    (d.type = .query → ∀ source, ∃ ix, ComputedIndex.create t index source settings = .ok ix ∧
      ∀ us, Tallied (fun _ => 0) (run ComputedIndex.change ix [] us)) := by
  refine ⟨fun hType => ?_, fun hType => ?_, fun hType source => ?_⟩
  · obtain ⟨ix, o, hCreate, -, -, hFiling, hName, hEmpty⟩ :=
      OrderedIndex.exists_create hTable hIndex hType settings
    exact ⟨ix, hCreate, (OrderedIndex.follows _ _).tallied (OrderedIndex.counts _ _)
      ⟨hEmpty, hFiling, hName⟩ (OrderedIndex.stats_of_create hCreate)⟩
  · obtain ⟨ix, o, hCreate, -, -, hFiling, hName, hEmpty⟩ :=
      HashedIndex.exists_create hTable hIndex hType settings
    exact ⟨ix, hCreate, (HashedIndex.follows _ _).tallied (HashedIndex.counts _ _)
      ⟨hEmpty, hFiling, hName⟩ (HashedIndex.stats_of_create hCreate)⟩
  · obtain ⟨o, hOrder⟩ := Table.exists_order_of_declare hTable hIndex settings.nulls
    exact ⟨_, ComputedIndex.create_eq hIndex hType hOrder, ComputedIndex.counts.tallied rfl rfl⟩

/-- An evaluation that breaks off after its first tuple. -/
def brokenOff : Query := .recorded
  { query := "SELECT k", width := 1, tuples := [[.int64 1], [.int64 2]],
    failure := some (1, .interrupted "SELECT k") }

/-- A table that has an index of each kind. -/
def threeWays : Table where
  name := "T"
  kind := .view
  columns := [{ name := "K", type := .int64 }]
  indexes := [{ name := "byK", table := "T", columns := [⟨"K", .descending⟩], unique := true },
    { name := "atK", table := "T", columns := [⟨"K", .ascending⟩], type := .hash },
    { name := "all", table := "T", columns := [⟨"K", .ascending⟩], type := .query }]

/-- A refused row, a scan that a hash table cannot answer, a scan of a query that breaks off after
one row, and one of a query that does not compile any more. -/
theorem tallied_of_failing_calls : ∃ ox hx cx,
    OrderedIndex.create threeWays "byK" {} = .ok ox ∧
    HashedIndex.create threeWays "atK" {} = .ok hx ∧
    ComputedIndex.create threeWays "all" (.query brokenOff) {} = .ok cx ∧
    Tallied StoredIndex.size (run StoredIndex.update ox [] [.change (.insert ⟨1, [.int64 7]⟩),
      .change (.insert ⟨2, [.int32 7]⟩), .scan none none, .move 0 .previous, .move 0 .next]) ∧
    StoredIndex.Deducts (run StoredIndex.update ox [] [.change (.insert ⟨1, [.int64 7]⟩)]).2 1 ∧
    Tallied StoredIndex.size (run StoredIndex.update hx [] [.change (.insert ⟨1, [.int64 7]⟩),
      .scan none none, .scan (some ⟨[some (.int32 7)]⟩) (some ⟨[some (.int64 7)]⟩),
      .move 0 .next]) ∧
    Tallied (fun _ => 0) (run ComputedIndex.change cx [] [.scan none none, .move 0 .next,
      .move 0 .next, .change (.invalidate "no table T"), .scan none none]) := by
  have hTable : Table.declare "T" [.kind .view, .column "K" .int64,
      .orderedIndex "byK" [⟨"K", .descending⟩] true, .hashIndex "atK" ["K"] false,
      .queryIndex "all" [⟨"K", .ascending⟩]] = .ok threeWays := rfl
  obtain ⟨ox, hOrdered, hOrderedAll⟩ := (@tallied_of_history _ "byK" _ _ _ hTable rfl {}).1 rfl
  obtain ⟨hx, hHashed, hHashedAll⟩ := (@tallied_of_history _ "atK" _ _ _ hTable rfl {}).2.1 rfl
  obtain ⟨cx, hComputed, hComputedAll⟩ :=
    (@tallied_of_history _ "all" _ _ _ hTable rfl {}).2.2 rfl (.query brokenOff)
  exact ⟨ox, hx, cx, hOrdered, hHashed, hComputed, (hOrderedAll _).1, (hOrderedAll _).2 1,
    (hHashedAll _).1, hComputedAll _⟩

end Index

end IndexScan

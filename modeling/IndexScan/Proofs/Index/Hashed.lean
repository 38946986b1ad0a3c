import IndexScan.Proofs.Index.RowFile

/-!
# Hashed indexes hold their ledger

A hashed index is a file of rows whose key index is a hash table.  A scan that pins a key takes the
rows with that key out of the index when it opens, so its cursor is a list of rows that only gets
shorter, and its answers do not depend on the index any more (`HashedIndex.travel_eq`).
-/

namespace IndexScan

/-! ### The cursor -/

namespace HashedCursor

/-- What the moves of a cursor answer, each with the place that it leads to. -/
def path (c : HashedCursor) : List Move → List (Except Error Bool × Place Row)
  | [] => []
  | .next :: ms =>
    match c.waiting with
    | r :: waiting => (.ok true, .on r) :: path { waiting, place := .on r } ms
    | [] => (.ok false, .exhausted) :: path { c with place := .exhausted } ms
  | .previous :: ms =>
    (.error (.unsupported "hash index cursors only move forward"), c.place) :: path c ms

theorem isInternal_path {c : HashedCursor} {ms : List Move} {x : Except Error Bool × Place Row}
    (hx : x ∈ c.path ms) {e : Error} (he : x.1 = .error e) : e.isInternal = false := by
  induction ms generalizing c with
  | nil => cases hx
  | cons m ms ih =>
    rw [path.eq_def] at hx
    cases m with
    | next =>
      simp only at hx
      split at hx
      · rcases List.mem_cons.1 hx with rfl | hx
        · cases he
        · exact ih hx
      · rcases List.mem_cons.1 hx with rfl | hx
        · cases he
        · exact ih hx
    | previous =>
      rcases List.mem_cons.1 hx with rfl | hx
      · cases he
        rfl
      · exact ih hx

end HashedCursor

namespace HashedIndex

theorem travel_eq (ix : HashedIndex) (c : HashedCursor) (ms : List Move) :
    (Index.travel ix c ms).result.1 = c.path ms := by
  induction ms generalizing ix c with
  | nil => rfl
  | cons m ms ih =>
    rw [Index.travel, HashedCursor.path.eq_def]
    cases m with
    | next =>
      obtain ⟨_ | ⟨r, waiting⟩, place⟩ := c
      · exact congrArg (_ :: ·) (ih _ _)
      · exact congrArg (_ :: ·) (ih _ _)
    | previous => exact congrArg (_ :: ·) (ih _ _)

theorem readOn_eq (ix : HashedIndex) (c : HashedCursor) {limit : Nat}
    (hLimit : c.waiting.length < limit) :
    (Index.readOn limit ix c).result.1 = .ok c.waiting := by
  induction limit generalizing ix c with
  | zero => omega
  | succ limit ih =>
    obtain ⟨_ | ⟨r, waiting⟩, place⟩ := c
    · rfl
    · have hRest := ih { ix with keys := ix.keys.recordRow } { waiting, place := .on r }
        (Nat.lt_of_succ_lt_succ hLimit)
      have hNext : Index.next ix ({ waiting := r :: waiting, place } : HashedCursor)
          = pure (.ok true, { waiting, place := .on r }, { ix with keys := ix.keys.recordRow }) :=
        rfl
      simp only [Index.readOn, Traced.result_bind, hNext, Traced.result_pure, hRest]
      rfl

/-! ### The index as a file of rows -/

def filing (ix : HashedIndex) : Filing := ⟨ix.store.table, ix.order, ix.keys.unique⟩

def file (ix : HashedIndex) : RowFile (KeyTable Key) := ⟨ix.store, ix.keys⟩

def withFile (ix : HashedIndex) (f : RowFile (KeyTable Key)) : HashedIndex :=
  { ix with store := f.store, keys := f.keys }

/-- The index holds the rows of a ledger. -/
def Holds (ix : HashedIndex) (log : List Row) : Prop :=
  ix.file.Holds (fun keys m => keys.Refines ix.order.compareKeys ix.order.Full m) ix.order log

variable {ix ix' : HashedIndex} {log : List Row}

/-- The hash table and the order of the index tell its keys apart alike. -/
theorem models (o : RowOrder) : KeyIndex.Models o.compareKeys o.Full
    fun (keys : KeyTable Key) m => keys.Refines o.compareKeys o.Full m :=
  KeyTable.models fun _ _ hk hl => RowOrder.compareKeys_eq_iff hk hl

theorem insert_eq (ix : HashedIndex) (r : Row) :
    ix.insert r = (ix.file.insert ix.order r).map id ix.withFile := by
  have hStore : ix.file.store = ix.store := rfl
  have hKeys : KeyIndex.insert ix.file.keys = ix.keys.insert := rfl
  rw [insert, RowFile.insert, hStore, hKeys]
  cases ix.store.check r with
  | error e => rfl
  | ok _ =>
    dsimp only
    rcases ix.keys.insert (ix.order.keyOf r) r.id with ⟨⟨⟨⟩⟩ | ⟨⟨⟩⟩, keys⟩ <;> rfl

theorem erase_eq (ix : HashedIndex) (id : RowId) :
    ix.erase id = ((ix.file.erase ix.order id).1, ix.withFile (ix.file.erase ix.order id).2) := by
  rw [erase, RowFile.erase, show ix.file.store = ix.store from rfl]
  cases ix.store.row? id <;> rfl

theorem Holds.exists_insert (h : ix.Holds log) {r : Row}
    (hAccepts : ix.filing.refusal ix.store.index log r = none) :
    ∃ ix', ix.insert r = (.ok (), ix') ∧ ix'.Holds (log ++ [r]) ∧ ix'.filing = ix.filing ∧
      ix'.store.index = ix.store.index := by
  obtain ⟨f, hInsert, hHolds, hFiling, hIndex⟩ :=
    RowFile.Holds.exists_insert (models ix.order) h hAccepts
  exact ⟨ix.withFile f, by rw [insert_eq, hInsert]; rfl, hHolds, hFiling, hIndex⟩

theorem Holds.insert_refused (h : ix.Holds log) {r : Row} {e : Error}
    (hRefused : ix.filing.refusal ix.store.index log r = some e) :
    ix.insert r = (.error e, ix) := by
  rw [insert_eq, RowFile.Holds.insert_refused (models ix.order) h hRefused]
  rfl

theorem Holds.erase (h : ix.Holds log) (id : RowId) :
    (ix.erase id).1 = log.find? (·.id == id) ∧ (ix.erase id).2.Holds (log.filter (·.id != id)) ∧
      (ix.erase id).2.filing = ix.filing ∧ (ix.erase id).2.store.index = ix.store.index := by
  rw [erase_eq]
  exact RowFile.Holds.erase (models ix.order) h id

/-! ### Counting -/

/-- Counting changes nothing that the ledger tells. -/
theorem Holds.counted (h : ix.Holds log) {keys : KeyTable Key} (hMap : keys.map = ix.keys.map)
    (hRows : keys.stats.totalRows = ix.keys.stats.totalRows) :
    ({ ix with keys } : HashedIndex).Holds log := by
  obtain ⟨m, hKeys, hFiles⟩ := h.keys
  obtain ⟨unique, map, stats⟩ := keys
  obtain rfl : map = ix.keys.map := hMap
  refine ⟨h.columns, h.widths, h.store, m, ?_, hFiles⟩
  exact ⟨hKeys.ascending, hKeys.keys, hKeys.ids_ne_nil, hKeys.get_eq, hKeys.contains_eq,
    hKeys.stored, hRows.trans hKeys.count⟩

theorem Holds.travel (h : ix.Holds log) (c : HashedCursor) (ms : List Move) :
    (Index.travel ix c ms).result.2.Holds log ∧
      (Index.travel ix c ms).result.2.filing = ix.filing ∧
      (Index.travel ix c ms).result.2.store.index = ix.store.index := by
  induction ms generalizing ix c with
  | nil => exact ⟨h, rfl, rfl⟩
  | cons m ms ih =>
    cases m with
    | next =>
      obtain ⟨_ | ⟨r, waiting⟩, place⟩ := c
      · exact ih h _
      · have hNext : ({ ix with keys := ix.keys.recordRow } : HashedIndex).Holds log :=
          h.counted rfl rfl
        exact ih hNext _
    | previous => exact ih h c

/-! ### Scans -/

end HashedIndex

/-- Both bounds of a scan are given and have a value in every key column, and the same ones. -/
def RowOrder.Pins (o : RowOrder) (lower upper : Option Bound) : Prop :=
  ∃ l u, lower = some l ∧ upper = some u ∧ o.covers l = true ∧ o.covers u = true ∧
    o.compareRows l u = .eq

namespace HashedIndex

variable {ix ix' : HashedIndex} {log : List Row} {lower upper : Option Bound} {key : Key}

theorem exists_pinnedKey (h : ix.order.Pins lower upper) : ∃ l u, lower = some l ∧
    upper = some u ∧ ix.order.covers l = true ∧ ix.order.covers u = true ∧
    ix.order.compareRows l u = .eq ∧ ix.pinnedKey lower upper = .ok (ix.order.keyOf l) := by
  obtain ⟨l, u, rfl, rfl, hl, hu, hEq⟩ := h
  refine ⟨l, u, rfl, rfl, hl, hu, hEq, ?_⟩
  simp [pinnedKey, hl, hu, hEq]

theorem exists_pinnedKey_error (h : ¬ ix.order.Pins lower upper) :
    ∃ message, ix.pinnedKey lower upper = .error (.unsupported message) := by
  cases lower with
  | none => exact ⟨_, rfl⟩
  | some l =>
    cases upper with
    | none => exact ⟨_, rfl⟩
    | some u =>
      have hNot : ¬ (ix.order.covers l && ix.order.covers u &&
          ix.order.compareRows l u == .eq) = true := by
        intro hAll
        simp only [Bool.and_eq_true, beq_iff_eq] at hAll
        exact h ⟨l, u, rfl, rfl, hAll.1.1, hAll.1.2, hAll.2⟩
      exact ⟨_, if_neg hNot⟩

theorem full_pinnedKey (h : ix.pinnedKey lower upper = .ok key) : ix.order.Full key := by
  by_cases hPins : ix.order.Pins lower upper
  · obtain ⟨l, u, -, -, -, -, -, hKey⟩ := exists_pinnedKey hPins
    obtain rfl := Except.ok.inj (hKey.symm.trans h)
    exact RowOrder.full_keyOf ix.order l
  · obtain ⟨message, hKey⟩ := exists_pinnedKey_error hPins
    rw [hKey] at h
    cases h

theorem scan_of_error {e : Error} (h : ix.pinnedKey lower upper = .error e) :
    (Index.scan ix lower upper).result = (.error e, ix) := by
  have hScan : (Index.scan ix lower upper).result = ix.scan lower upper := rfl
  rw [hScan, scan, h]

/-- Under every key there are the identities of the rows with that key. -/
theorem Holds.get_eq (h : ix.Holds log) (hKey : ix.order.Full key) :
    ix.keys.get key = (ix.order.withKey log key).map Row.id := by
  obtain ⟨m, hKeys, hFiles⟩ := h.keys
  rw [← hFiles key hKey]
  exact hKeys.get_eq key hKey

/-- A scan that pins a key finds every row that it looks up. -/
theorem Holds.scan_of_ok (h : ix.Holds log) (hKey : ix.pinnedKey lower upper = .ok key) :
    (Index.scan ix lower upper).result = (.ok { waiting := ix.order.withKey log key },
      { ix with keys := ix.keys.recordScan }) := by
  have hScan : (Index.scan ix lower upper).result = ix.scan lower upper := rfl
  have hRows : ((ix.order.withKey log key).map Row.id).mapM ix.store.require
      = .ok (ix.order.withKey log key) :=
    h.store.mapM_require fun r hr => (List.mem_filter.1 hr).1
  rw [hScan, scan, hKey]
  simp only [h.get_eq (full_pinnedKey hKey), hRows]
  rfl

theorem Holds.visited_eq (h : ix.Holds log) (lower upper : Option Bound) (ms : List Move) :
    Index.visited ix lower upper ms = (ix.pinnedKey lower upper).map fun key =>
      ({ waiting := ix.order.withKey log key } : HashedCursor).path ms := by
  rw [Index.visited]
  cases hKey : ix.pinnedKey lower upper with
  | error e =>
    rw [scan_of_error hKey]
    rfl
  | ok key =>
    rw [h.scan_of_ok hKey]
    exact congrArg Except.ok (travel_eq _ _ ms)

theorem Holds.rows_eq (h : ix.Holds log) (lower upper : Option Bound) :
    (Index.rows ix lower upper).result.1
      = (ix.pinnedKey lower upper).map (ix.order.withKey log) := by
  rw [Index.rows, Traced.result_bind]
  cases hKey : ix.pinnedKey lower upper with
  | error e =>
    rw [scan_of_error hKey]
    rfl
  | ok key =>
    rw [h.scan_of_ok hKey]
    exact readOn_eq _ { waiting := ix.order.withKey log key } (Nat.lt_succ_self _)

theorem Holds.visit (h : ix.Holds log) (lower upper : Option Bound) (ms : List Move) :
    (Index.visit ix lower upper ms).result.Holds log ∧
      (Index.visit ix lower upper ms).result.filing = ix.filing ∧
      (Index.visit ix lower upper ms).result.store.index = ix.store.index := by
  rw [Index.visit, Traced.result_bind]
  cases hKey : ix.pinnedKey lower upper with
  | error e =>
    rw [scan_of_error hKey]
    exact ⟨h, rfl, rfl⟩
  | ok key =>
    rw [h.scan_of_ok hKey]
    have hOpen : ({ ix with keys := ix.keys.recordScan } : HashedIndex).Holds log :=
      h.counted rfl rfl
    exact hOpen.travel { waiting := ix.order.withKey log key } ms

/-! ### Histories -/

/-- A hashed index keeps the ledger that it holds. -/
theorem follows (f : Filing) (index : String) : StoredIndex.Follows f index
    fun (ix : HashedIndex) log => ix.Holds log ∧ ix.filing = f ∧ ix.store.index = index where
  nodup h := h.1.store.nodup
  size_eq h := h.1.store.size_eq
  totalRows_eq {ix log} h := RowFile.Holds.totalRows_eq (models ix.order) h.1
  exists_insert := by
    rintro ix log ⟨h, rfl, rfl⟩ r hRefusal
    exact h.exists_insert hRefusal
  insert_refused := by
    rintro ix log ⟨h, rfl, rfl⟩ r e hRefusal
    exact h.insert_refused hRefusal
  erase := by
    rintro ix log ⟨h, rfl, rfl⟩ id
    exact h.erase id
  visit := by
    rintro ix log ⟨h, rfl, rfl⟩ lower upper ms
    exact h.visit lower upper ms

/-- What scans answer depends on the ledger only. -/
theorem Holds.visited_congr (h : ix.Holds log) (h' : ix'.Holds log)
    (hOrder : ix.order = ix'.order) (hIndex : ix.store.index = ix'.store.index) :
    Index.visited ix = Index.visited ix' := by
  funext lower upper ms
  have hPinned : ix.pinnedKey lower upper = ix'.pinnedKey lower upper := by
    simp only [pinnedKey, hOrder, hIndex]
  rw [h.visited_eq, h'.visited_eq, hPinned, hOrder]

/-- A new index for a definition of a declared table holds nothing. -/
theorem exists_create {name : String} {steps : List Declaration} {t : Table} {index : String}
    {d : IndexDef} (hTable : Table.declare name steps = .ok t) (hIndex : t.index? index = some d)
    (hType : d.type = .hash) (settings : Settings) :
    ∃ ix o, create t index settings = .ok ix ∧ RowOrder.ofIndex t d settings.nulls = .ok o ∧
      o.columns.length = d.columns.length ∧ ix.filing = ⟨t, o, d.unique⟩ ∧
      ix.store.index = index ∧ ix.Holds [] := by
  have hMem : d ∈ t.indexes := List.mem_of_find?_eq_some hIndex
  obtain ⟨o, hOrder, hLength, hColumns⟩ :=
    (Table.resolves_of_declare hTable).exists_order hMem settings.nulls
  have hCreate : create t index settings = .ok {
      store := { index, table := t }, order := o, keys := { unique := d.unique } } := by
    rw [create, Table.requireIndex, hIndex, ok_bind, if_neg (by simp [hType]), hOrder]
    rfl
  exact ⟨_, o, hCreate, hOrder, hLength, rfl, rfl,
    RowFile.holds_empty hColumns (KeyTable.refines_empty _ _ rfl rfl)⟩

end HashedIndex

end IndexScan

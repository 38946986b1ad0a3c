import IndexScan.Proofs.Index.RowFile

/-!
# Ordered indexes hold their ledger

An ordered index is a file of rows whose key index is a tree, so its insertions and removals are
those of the file.  Scans only count.  Hence every history of calls leads to an index that holds the
ledger of the history (`Holds.after`).
-/

namespace IndexScan

/-! ### The index and its ledger -/

namespace OrderedIndex

def filing (ix : OrderedIndex) : Filing := ⟨ix.store.table, ix.order, ix.tree.unique⟩

/-- The index holds the rows of a ledger. -/
structure Holds (ix : OrderedIndex) (log : List Row) : Prop where
  columns : ∀ c ∈ ix.order.columns, c.1 < ix.store.table.width
  widths : ∀ r ∈ log, r.width = ix.store.table.width
  store : ix.store.Keeps log
  tree : ∃ m, ix.tree.Refines ix.order.Full m ∧ ix.order.Files m log

variable {ix : OrderedIndex} {log : List Row}

theorem Holds.covers (h : ix.Holds log) {r : Row} (hr : r ∈ log) : ix.order.covers r = true :=
  RowOrder.covers_of_width fun c hc => (h.widths r hr).symm ▸ h.columns c hc

/-! ### The index as a file of rows -/

def file (ix : OrderedIndex) : RowFile (KeyTree Key ix.order.compareKeys) := ⟨ix.store, ix.tree⟩

def withFile (ix : OrderedIndex) (f : RowFile (KeyTree Key ix.order.compareKeys)) : OrderedIndex :=
  { ix with store := f.store, tree := f.keys }

theorem insert_eq (ix : OrderedIndex) (r : Row) :
    ix.insert r = (ix.file.insert ix.order r).map id ix.withFile := by
  have hStore : ix.file.store = ix.store := rfl
  have hKeys : KeyIndex.insert ix.file.keys = ix.tree.insert := rfl
  rw [insert, RowFile.insert, hStore, hKeys]
  cases ix.store.check r with
  | error e => rfl
  | ok _ =>
    dsimp only
    rcases ix.tree.insert (ix.order.keyOf r) r.id with ⟨⟨⟨⟩⟩ | ⟨⟨⟩⟩, tree⟩ <;> rfl

theorem erase_eq (ix : OrderedIndex) (id : RowId) :
    ix.erase id = ((ix.file.erase ix.order id).1, ix.withFile (ix.file.erase ix.order id).2) := by
  rw [erase, RowFile.erase, show ix.file.store = ix.store from rfl]
  cases ix.store.row? id <;> rfl

theorem holds_iff : ix.Holds log
    ↔ ix.file.Holds (fun tree m => tree.Refines ix.order.Full m) ix.order log :=
  ⟨fun h => ⟨h.columns, h.widths, h.store, h.tree⟩, fun h => ⟨h.columns, h.widths, h.store, h.keys⟩⟩

theorem Holds.exists_insert (h : ix.Holds log) {r : Row}
    (hAccepts : ix.filing.accepts log r = true) :
    ∃ ix', ix.insert r = (.ok (), ix') ∧ ix'.Holds (log ++ [r]) ∧ ix'.filing = ix.filing ∧
      ix'.store.index = ix.store.index := by
  obtain ⟨f, hInsert, hHolds, hFiling, hIndex⟩ := (holds_iff.1 h).exists_insert
    (KeyTree.models ix.order.Full) (Filing.accepts_iff.1 hAccepts)
  exact ⟨ix.withFile f, by rw [insert_eq, hInsert]; rfl, holds_iff.2 hHolds, hFiling, hIndex⟩

theorem Holds.insert_refused (h : ix.Holds log) {r : Row} {e : Error}
    (hRefused : ix.filing.refusal ix.store.index log r = some e) :
    ix.insert r = (.error e, ix) := by
  rw [insert_eq, (holds_iff.1 h).insert_refused (KeyTree.models ix.order.Full) hRefused]
  rfl

theorem Holds.erase (h : ix.Holds log) (id : RowId) :
    (ix.erase id).1 = log.find? (·.id == id) ∧ (ix.erase id).2.Holds (log.filter (·.id != id)) ∧
      (ix.erase id).2.filing = ix.filing ∧ (ix.erase id).2.store.index = ix.store.index := by
  obtain ⟨hErased, hHolds, hFiling, hIndex⟩ :=
    (holds_iff.1 h).erase (KeyTree.models ix.order.Full) id
  rw [erase_eq]
  exact ⟨hErased, holds_iff.2 hHolds, hFiling, hIndex⟩

/-! ### Counting -/

/-- Counting changes nothing that the ledger tells. -/
theorem Holds.recordScan (h : ix.Holds log) :
    ({ ix with tree := ix.tree.recordScan } : OrderedIndex).Holds log := by
  obtain ⟨m, hTree, hFiles⟩ := h.tree
  exact ⟨h.columns, h.widths, h.store, m, ⟨hTree.arena, hTree.count⟩, hFiles⟩

theorem Holds.recordRow (h : ix.Holds log) : ix.recordRow.Holds log := by
  obtain ⟨m, hTree, hFiles⟩ := h.tree
  exact ⟨h.columns, h.widths, h.store, m, ⟨hTree.arena, hTree.count⟩, hFiles⟩

theorem Holds.counted (h : ix.Holds log) (x : Except Error Bool × OrderedCursor) :
    (ix.counted x).2.2.Holds log ∧ (ix.counted x).2.2.filing = ix.filing ∧
      (ix.counted x).2.2.store.index = ix.store.index := by
  rcases x with ⟨⟨⟩ | ⟨_ | _⟩, c⟩
  · exact ⟨h, rfl, rfl⟩
  · exact ⟨h, rfl, rfl⟩
  · exact ⟨h.recordRow, rfl, rfl⟩

theorem Holds.travel (h : ix.Holds log) (c : OrderedCursor) (ms : List Move) :
    (Index.travel ix c ms).result.2.Holds log ∧
      (Index.travel ix c ms).result.2.filing = ix.filing ∧
      (Index.travel ix c ms).result.2.store.index = ix.store.index := by
  induction ms generalizing ix c with
  | nil => exact ⟨h, rfl, rfl⟩
  | cons m ms ih =>
    have hMove : (Index.move ix c m).result.2.2.Holds log ∧
        (Index.move ix c m).result.2.2.filing = ix.filing ∧
        (Index.move ix c m).result.2.2.store.index = ix.store.index := by
      cases m with
      | next => exact h.counted (c.next ix)
      | previous => exact h.counted (c.previous ix)
    obtain ⟨hRest, hFiling, hIndex⟩ := ih hMove.1 (Index.move ix c m).result.2.1
    exact ⟨hRest, hFiling.trans hMove.2.1, hIndex.trans hMove.2.2⟩

/-! ### Histories -/

/-- An ordered index keeps the ledger that it holds. -/
theorem follows (f : Filing) (index : String) : StoredIndex.Follows f index
    fun (ix : OrderedIndex) log => ix.Holds log ∧ ix.filing = f ∧ ix.store.index = index where
  nodup h := h.1.store.nodup
  size_eq h := h.1.store.size_eq
  totalRows_eq h := (holds_iff.1 h.1).totalRows_eq (KeyTree.models _)
  exists_insert := by
    rintro ix log ⟨h, rfl, rfl⟩ r hRefusal
    exact h.exists_insert (Filing.accepts_iff.2 hRefusal)
  insert_refused := by
    rintro ix log ⟨h, rfl, rfl⟩ r e hRefusal
    exact h.insert_refused hRefusal
  erase := by
    rintro ix log ⟨h, rfl, rfl⟩ id
    exact h.erase id
  visit := by
    rintro ix log ⟨h, rfl, rfl⟩ lower upper ms
    exact h.recordScan.travel { lower, upper } ms

/-- Every history of calls leads to an index that holds the ledger of the history. -/
theorem Holds.after (h : ix.Holds log) (ops : List Operation) :
    (StoredIndex.after ix ops).Holds (ops.foldl ix.filing.record log) ∧
      (StoredIndex.after ix ops).filing = ix.filing := by
  obtain ⟨hHolds, hFiling, -⟩ := (follows ix.filing ix.store.index).after ⟨h, rfl, rfl⟩ ops
  exact ⟨hHolds, hFiling⟩

/-- The rows with a key are found in the order of the ledger. -/
theorem Holds.get_eq_filter (h : ix.Holds log) (key : Key) : ix.get key
    = log.filter fun r => ix.order.compareKeys (ix.order.keyOf r) key == .eq := by
  obtain ⟨m, hTree, hFiles⟩ := h.tree
  have hStored : ∀ r ∈ log.filter fun r => ix.order.compareKeys (ix.order.keyOf r) key == .eq,
      ix.store.row? r.id = some r :=
    fun r hr => h.store.row?_of_mem (List.mem_filter.1 hr).1
  rw [get, hTree.get_eq, hFiles.get_eq hTree.ascending hTree.keys, List.filterMap_map]
  exact (List.filterMap_congr hStored).trans List.filterMap_some

theorem Holds.get_eq (h : ix.Holds log) {key : Key} (hKey : ix.order.Full key) :
    ix.get key = ix.order.withKey log key := by
  rw [h.get_eq_filter]
  refine List.filter_congr fun r _ => ?_
  rw [Bool.eq_iff_iff, RowOrder.keyOf_beq_iff hKey, beq_iff_eq]

/-- A new index for a definition of a declared table holds nothing. -/
theorem exists_create {name : String} {steps : List Declaration} {t : Table} {index : String}
    {d : IndexDef} (hTable : Table.declare name steps = .ok t) (hIndex : t.index? index = some d)
    (hType : d.type = .btree) (settings : Settings) :
    ∃ ix o, create t index settings = .ok ix ∧ RowOrder.ofIndex t d settings.nulls = .ok o ∧
      o.columns.length = d.columns.length ∧ ix.filing = ⟨t, o, d.unique⟩ ∧
      ix.store.index = index ∧ ix.Holds [] := by
  have hMem : d ∈ t.indexes := List.mem_of_find?_eq_some hIndex
  obtain ⟨o, hOrder, hLength, hColumns⟩ :=
    (Table.resolves_of_declare hTable).exists_order hMem settings.nulls
  have hCreate : create t index settings = .ok {
      store := { index, table := t }, order := o, tree := .empty settings.fanout d.unique } := by
    rw [create, Table.requireIndex, hIndex, ok_bind, if_neg (by simp [hType]), hOrder]
    rfl
  exact ⟨_, o, hCreate, hOrder, hLength, rfl, rfl,
    holds_iff.2 (RowFile.holds_empty hColumns (KeyTree.refines_empty ..))⟩

end OrderedIndex

end IndexScan

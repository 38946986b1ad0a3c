import IndexScan.Proofs.Index.Agreement
import IndexScan.Proofs.Index.Hashed

/-!
# Indexes that store rows are consistent

An index that stores rows keeps them by identity and their identities by key, and changes the two
apart from each other.  After any calls both tell what the ledger tells (`Consistent`): so no scan
misses a row that the keys refer to, a row is refused for the first check of the ledger that it
fails and leaves nothing behind, and a row that is inserted and removed again leaves no trace in any
answer.  A tree remembers such a row in its splits and separators, but its answers are those of the
ledger, which does not.
-/

namespace IndexScan

/-- No failure among the answers is a defect of the engine. -/
def Index.Faultless : Except Error (List (Except Error Bool × Place Row)) → Prop
  | .error e => e.isInternal = false
  | .ok answers => ∀ x ∈ answers, ∀ e, x.1 = .error e → e.isInternal = false

namespace StoredIndex

/-- An index whose stored rows, recorded identities, counters and answers are those of a ledger. -/
structure Consistent {ι : Type} [StoredIndex ι] (f : Filing) (index : String)
    (stored : ι → RowId → Option Row) (recorded : ι → Key → List RowId) (ix : ι)
    (log : List Row) : Prop where
  nodup : (log.map Row.id).Nodup
  stored_eq : ∀ id, stored ix id = log.find? (·.id == id)
  /-- Under every key there are the identities of the rows with that key. -/
  recorded_eq : ∀ key, f.order.Full key →
    recorded ix key = (log.filter (f.order.keyOf · == key)).map Row.id
  size_eq : size ix = log.length
  totalRows_eq : (Index.stats ix).totalRows = .ofNat (size ix)
  faultless : ∀ lower upper ms, Index.Faultless (Index.visited ix lower upper ms)
  insert_ok : ∀ r, (insert ix r).1 = .ok () ↔ f.refusal index log r = none
  insert_error : ∀ r e, (insert ix r).1 = .error e ↔ f.refusal index log r = some e
  /-- A row that is refused changes nothing, not even a counter. -/
  refused : ∀ r e, (insert ix r).1 = .error e → (insert ix r).2 = ix
  erase_eq : ∀ id, (erase ix id).1 = log.find? (·.id == id)
  /-- A row that is removed again comes back as it was, and no answer tells that it was there. -/
  undo : ∀ r ix', insert ix r = (.ok (), ix') → (erase ix' r.id).1 = some r ∧
    ∀ ops, replies (erase ix' r.id).2 ops = replies ix ops

theorem Follows.consistent {ι : Type} [StoredIndex ι] {f : Filing} {index : String}
    {H : ι → List Row → Prop} {stored : ι → RowId → Option Row} {recorded : ι → Key → List RowId}
    {ix : ι} {log : List Row} (h : Follows f index H)
    (hStored : ∀ {ix log}, H ix log → ∀ id, stored ix id = log.find? (·.id == id))
    (hRecorded : ∀ {ix log}, H ix log → ∀ key, f.order.Full key →
      recorded ix key = (f.order.withKey log key).map Row.id)
    (hScans : ∀ {ix ix' log}, H ix log → H ix' log → Index.visited ix = Index.visited ix')
    (hFaultless : ∀ {ix log}, H ix log →
      ∀ lower upper ms, Index.Faultless (Index.visited ix lower upper ms))
    (hH : H ix log) : Consistent f index stored recorded ix log where
  nodup := h.nodup hH
  stored_eq := hStored hH
  recorded_eq := hRecorded hH
  size_eq := h.size_eq hH
  totalRows_eq := by rw [h.totalRows_eq hH, h.size_eq hH]
  faultless := hFaultless hH
  insert_ok _ := h.insert_eq_ok_iff hH
  insert_error _ _ := h.insert_eq_error_iff hH
  refused _ _ hRefused := h.refused hH hRefused
  erase_eq id := (h.erase hH id).1
  undo r ix' hInsert := by
    obtain ⟨hErased, hLast⟩ := h.undo hH hInsert
    exact ⟨hErased, h.replies_congr hScans hLast hH⟩

namespace Consistent

variable {ι : Type} [StoredIndex ι] {f : Filing} {index : String}
  {stored : ι → RowId → Option Row} {recorded : ι → Key → List RowId} {ix : ι} {log : List Row}
  {r : Row}

theorem exists_insert (h : Consistent f index stored recorded ix log)
    (hTaken : f.refusal index log r = none) : ∃ ix', insert ix r = (.ok (), ix') :=
  ⟨_, Prod.ext ((h.insert_ok r).2 hTaken) rfl⟩

theorem insert_refused (h : Consistent f index stored recorded ix log) {e : Error}
    (hRefused : f.refusal index log r = some e) : insert ix r = (.error e, ix) :=
  have hError := (h.insert_error r e).2 hRefused
  Prod.ext hError (h.refused r e hError)

end Consistent

end StoredIndex

/-! ### Ordered indexes -/

namespace OrderedIndex

variable {ix ix' : OrderedIndex} {log : List Row}

theorem Holds.exists_visited (h : ix.Holds log) (lower upper : Option Bound) : ∃ rows,
    ix.order.Arranges rows (log.filter (ix.order.inRange lower upper)) ∧
    ∀ ms, Index.visited ix lower upper ms = .ok
      (((.beforeFirst : Place (Fin rows.length)).path ms).map fun p =>
        (.ok p.isOn, p.map rows.get)) := by
  obtain ⟨stops, below, inside, above, hArranges, hCuts⟩ := h.exists_cuts lower upper
  exact ⟨_, hArranges, fun ms => congrArg Except.ok (hCuts.travel_rows ms)⟩

/-- What scans answer depends on the ledger only. -/
theorem Holds.visited_congr (h : ix.Holds log) (h' : ix'.Holds log)
    (hOrder : ix.order = ix'.order) : Index.visited ix = Index.visited ix' := by
  funext lower upper ms
  obtain ⟨rows, hArranges, hVisited⟩ := h.exists_visited lower upper
  obtain ⟨rows', hArranges', hVisited'⟩ := h'.exists_visited lower upper
  have hRows : rows = rows' := by
    rw [hArranges.eq_mergeSort fun r hr => h.covers (List.mem_filter.1 hr).1,
      hArranges'.eq_mergeSort fun r hr => h'.covers (List.mem_filter.1 hr).1, hOrder]
  subst hRows
  rw [hVisited, hVisited']

theorem Holds.faultless (h : ix.Holds log) (lower upper : Option Bound) (ms : List Move) :
    Index.Faultless (Index.visited ix lower upper ms) := by
  obtain ⟨rows, -, hVisited⟩ := h.exists_visited lower upper
  rw [hVisited]
  intro x hx e he
  obtain ⟨p, -, rfl⟩ := List.mem_map.1 hx
  cases he

theorem Holds.consistent (h : ix.Holds log) : StoredIndex.Consistent ix.filing ix.store.index
    (fun ix => ix.store.row?) (fun ix => ix.tree.get) ix log := by
  refine (follows ix.filing ix.store.index).consistent (fun h => h.1.store.row?_eq) ?_ ?_
    (fun h => h.1.faultless) ⟨h, rfl, rfl⟩
  · rintro ix' log ⟨h, hFiling, -⟩ key hKey
    obtain ⟨m, hTree, hFiles⟩ := h.tree
    rw [← congrArg Filing.order hFiling] at hKey ⊢
    rw [hTree.get_eq]
    exact hFiles key hKey
  · rintro ix₁ ix₂ log ⟨h₁, hFiling₁, -⟩ ⟨h₂, hFiling₂, -⟩
    exact h₁.visited_congr h₂ (congrArg Filing.order (hFiling₁.trans hFiling₂.symm))

/-- No lookup tells that a row has been there. -/
theorem Holds.get_after_undo (h : ix.Holds log) {r : Row} (hInsert : ix.insert r = (.ok (), ix'))
    (ops : List Operation) : (StoredIndex.after (ix'.erase r.id).2 ops).get
      = (StoredIndex.after ix ops).get := by
  have hFollows := follows ix.filing ix.store.index
  obtain ⟨-, hLast⟩ := hFollows.undo ⟨h, rfl, rfl⟩ hInsert
  obtain ⟨h₁, hFiling₁, -⟩ := hFollows.after hLast ops
  obtain ⟨h₂, hFiling₂, -⟩ := hFollows.after ⟨h, rfl, rfl⟩ ops
  funext key
  have hOrder : (StoredIndex.after (ix'.erase r.id).2 ops).order
      = (StoredIndex.after ix ops).order :=
    congrArg Filing.order (hFiling₁.trans hFiling₂.symm)
  rw [h₂.get_eq_filter, ← hOrder]
  exact h₁.get_eq_filter key

end OrderedIndex

/-! ### Hashed indexes -/

namespace HashedIndex

variable {ix : HashedIndex} {log : List Row}

theorem Holds.faultless (h : ix.Holds log) (lower upper : Option Bound) (ms : List Move) :
    Index.Faultless (Index.visited ix lower upper ms) := by
  rw [h.visited_eq]
  by_cases hPins : ix.order.Pins lower upper
  · obtain ⟨l, u, -, -, -, -, -, hKey⟩ := exists_pinnedKey hPins
    rw [hKey]
    intro x hx e he
    exact HashedCursor.isInternal_path hx he
  · obtain ⟨message, hKey⟩ := exists_pinnedKey_error hPins
    rw [hKey]
    rfl

theorem Holds.consistent (h : ix.Holds log) : StoredIndex.Consistent ix.filing ix.store.index
    (fun ix => ix.store.row?) (fun ix => ix.keys.get) ix log := by
  refine (follows ix.filing ix.store.index).consistent (fun h => h.1.store.row?_eq) ?_ ?_
    (fun h => h.1.faultless) ⟨h, rfl, rfl⟩
  · rintro ix' log ⟨h, hFiling, -⟩ key hKey
    rw [← congrArg Filing.order hFiling] at hKey ⊢
    exact h.get_eq hKey
  · rintro ix₁ ix₂ log ⟨h₁, hFiling₁, hIndex₁⟩ ⟨h₂, hFiling₂, hIndex₂⟩
    exact h₁.visited_congr h₂ (congrArg Filing.order (hFiling₁.trans hFiling₂.symm))
      (hIndex₁.trans hIndex₂.symm)

end HashedIndex

/-! ### Histories -/

namespace StoredIndex

/-- After any calls, an index of a declared table agrees with the ledger of the calls. -/
theorem consistent_of_history {name index : String} {steps : List Declaration} {t : Table}
    {d : IndexDef} (hTable : Table.declare name steps = .ok t) (hIndex : t.index? index = some d)
    (settings : Settings) :
    (d.type = .btree → ∃ ix o, OrderedIndex.create t index settings = .ok ix ∧
      RowOrder.ofIndex t d settings.nulls = .ok o ∧ ∀ ops,
        Consistent ⟨t, o, d.unique⟩ index (fun ix => ix.store.row?) (fun ix => ix.tree.get)
          (after ix ops) ((Filing.mk t o d.unique).ledger ops) ∧
        (∀ key, (after ix ops).get key = ((Filing.mk t o d.unique).ledger ops).filter
          fun r => o.compareKeys (o.keyOf r) key == .eq) ∧
        ∀ r ix', insert (after ix ops) r = (.ok (), ix') → ∀ later,
          (after (erase ix' r.id).2 later).get = (after (after ix ops) later).get) ∧
    (d.type = .hash → ∃ ix o, HashedIndex.create t index settings = .ok ix ∧
      RowOrder.ofIndex t d settings.nulls = .ok o ∧ ∀ ops,
        Consistent ⟨t, o, d.unique⟩ index (fun ix => ix.store.row?) (fun ix => ix.keys.get)
          (after ix ops) ((Filing.mk t o d.unique).ledger ops)) := by
  refine ⟨fun hType => ?_, fun hType => ?_⟩
  · obtain ⟨ix, o, hCreate, hOrder, -, hFiling, hName, hEmpty⟩ :=
      OrderedIndex.exists_create hTable hIndex hType settings
    refine ⟨ix, o, hCreate, hOrder, fun ops => ?_⟩
    obtain ⟨hHolds, hFiling', hName'⟩ :=
      (OrderedIndex.follows _ _).after ⟨hEmpty, hFiling, hName⟩ ops
    have hConsistent := hHolds.consistent
    rw [hFiling', hName'] at hConsistent
    obtain rfl : (after ix ops).order = o := congrArg Filing.order hFiling'
    exact ⟨hConsistent, hHolds.get_eq_filter, fun r ix' hInsert => hHolds.get_after_undo hInsert⟩
  · obtain ⟨ix, o, hCreate, hOrder, -, hFiling, hName, hEmpty⟩ :=
      HashedIndex.exists_create hTable hIndex hType settings
    refine ⟨ix, o, hCreate, hOrder, fun ops => ?_⟩
    obtain ⟨hHolds, hFiling', hName'⟩ :=
      (HashedIndex.follows _ _).after ⟨hEmpty, hFiling, hName⟩ ops
    have hConsistent := hHolds.consistent
    rw [hFiling', hName'] at hConsistent
    exact hConsistent

/-- A unique index of either kind refuses a second NULL, and takes back a key that has gone. -/
theorem consistent_with_nulls : ∃ t ox hx,
    Table.declare "T" [.column "K" .int64, .nullable ["K"], .index "byK" ["K"] true,
      .hashIndex "atK" ["K"] true] = .ok t ∧
    OrderedIndex.create t "byK" {} = .ok ox ∧ HashedIndex.create t "atK" {} = .ok hx ∧
    insert (after ox [.insert ⟨1, [.null]⟩, .insert ⟨2, [.int64 7]⟩, .erase 2]) ⟨3, [.null]⟩
      = (.error (.duplicateKey "byK" .null),
        after ox [.insert ⟨1, [.null]⟩, .insert ⟨2, [.int64 7]⟩, .erase 2]) ∧
    (after ox [.insert ⟨1, [.null]⟩, .insert ⟨2, [.int64 7]⟩, .erase 2]).get [.null]
      = [⟨1, [.null]⟩] ∧
    insert (after hx [.insert ⟨1, [.null]⟩, .insert ⟨2, [.int64 7]⟩, .erase 2]) ⟨3, [.null]⟩
      = (.error (.duplicateKey "atK" .null),
        after hx [.insert ⟨1, [.null]⟩, .insert ⟨2, [.int64 7]⟩, .erase 2]) ∧
    ∃ hx', insert (after hx [.insert ⟨1, [.null]⟩, .insert ⟨2, [.int64 7]⟩, .erase 2])
      ⟨4, [.int32 7]⟩ = (.ok (), hx') ∧ (erase hx' 4).1 = some ⟨4, [.int32 7]⟩ := by
  obtain ⟨ox, o, hOrdered, hOrder, hAll⟩ := (@consistent_of_history "T" "byK"
    [.column "K" .int64, .nullable ["K"], .index "byK" ["K"] true, .hashIndex "atK" ["K"] true]
    _ _ rfl rfl {}).1 rfl
  obtain ⟨hx, o', hHashed, hOrder', hAll'⟩ := (@consistent_of_history "T" "atK"
    [.column "K" .int64, .nullable ["K"], .index "byK" ["K"] true, .hashIndex "atK" ["K"] true]
    _ _ rfl rfl {}).2 rfl
  obtain rfl := Except.ok.inj hOrder
  obtain rfl := Except.ok.inj hOrder'
  obtain ⟨hConsistent, hGet, -⟩ :=
    hAll [.insert ⟨1, [.null]⟩, .insert ⟨2, [.int64 7]⟩, .erase 2]
  have hConsistent' := hAll' [.insert ⟨1, [.null]⟩, .insert ⟨2, [.int64 7]⟩, .erase 2]
  obtain ⟨hx', hInsert⟩ := hConsistent'.exists_insert (r := ⟨4, [.int32 7]⟩) rfl
  exact ⟨_, ox, hx, rfl, hOrdered, hHashed, hConsistent.insert_refused rfl,
    (hGet [.null]).trans rfl, hConsistent'.insert_refused rfl, hx', hInsert,
    (hConsistent'.undo _ hx' hInsert).1⟩

end StoredIndex

end IndexScan

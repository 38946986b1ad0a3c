import IndexScan.Proofs.Index.Computed
import IndexScan.Proofs.Index.Scan

/-!
# A query in the place of an index

An ordered index over rows and a computed index over the query that lists them give the same
tuples: a scan of the ordered index is a stable sort of the rows in range
(`OrderedIndex.Holds.rows_eq_mergeSort`), and the computed index has the same rows in range.
-/

namespace IndexScan

/-! ### The two scans -/

/-- Of tuples as wide as the table a scan gives those whose rows are in range. -/
theorem RowOrder.map_values_rowsOf (o : RowOrder) {width : Nat} {rows : List Row}
    (hWidths : ∀ r ∈ rows, r.width = width) (lower upper : Option Bound) :
    (o.rowsOf width lower upper (rows.map Row.values)).map Row.values
      = (rows.filter (o.inRange lower upper)).map Row.values := by
  have hRows : (rows.map Row.values).map (Row.ofTuple width)
      = rows.map fun r => Row.dummy r.values := by
    rw [List.map_map]
    refine List.map_congr_left fun r hr => ?_
    rw [Function.comp_apply, Row.ofTuple, Row.fitted_eq_self (hWidths r hr)]
  rw [rowsOf, hRows, List.filter_map, List.map_map]
  rfl

namespace OrderedIndex

/-- Rows that fit the table and have identities of their own are all taken. -/
theorem Holds.fill {ix : OrderedIndex} {log rows : List Row} (h : ix.Holds log)
    (hUnique : ix.tree.unique = false) (hIds : ((log ++ rows).map Row.id).Nodup)
    (hValid : ∀ r ∈ rows, ix.store.table.validate r = .ok ()) :
    StoredIndex.replies ix (rows.map .insert) = rows.map (fun _ => .inserted (.ok ())) ∧
      (StoredIndex.after ix (rows.map .insert)).Holds (log ++ rows) ∧
      (StoredIndex.after ix (rows.map .insert)).filing = ix.filing := by
  induction rows generalizing ix log with
  | nil => exact ⟨rfl, by rwa [List.append_nil], rfl⟩
  | cons r rows ih =>
    obtain ⟨hHead, hRest⟩ := List.forall_mem_cons.1 hValid
    have hNew : log.any (·.id == r.id) = false := by
      refine List.any_eq_false.2 fun q hq hId => ?_
      rw [List.map_append, List.nodup_append] at hIds
      exact hIds.2.2 q.id (List.mem_map_of_mem hq) r.id List.mem_cons_self (by simpa using hId)
    have hAccepts : ix.filing.accepts log r = true := by
      have hOk : (ix.store.table.validate r).isOk = true := by rw [hHead]; rfl
      simp [Filing.accepts, filing, hUnique, hOk, hNew]
    obtain ⟨ix₁, hInsert, hHolds, hFiling, -⟩ := h.exists_insert hAccepts
    have hTable : ix₁.store.table = ix.store.table := congrArg Filing.table hFiling
    have hUnique' : ix₁.tree.unique = false := (congrArg Filing.unique hFiling).trans hUnique
    rw [List.append_cons] at hIds ⊢
    obtain ⟨hReplies, hHolds', hFiling'⟩ := ih hHolds hUnique' hIds (by rwa [hTable])
    have hTaken : StoredIndex.insert ix r = (.ok (), ix₁) := hInsert
    have hApply : StoredIndex.apply ix (.insert r) = ix₁ := congrArg Prod.snd hTaken
    have hReply : StoredIndex.reply ix (.insert r) = .inserted (.ok ()) :=
      congrArg (fun x : Except Error Unit × OrderedIndex => Reply.inserted x.1) hTaken
    have hAfter : StoredIndex.after ix ((r :: rows).map .insert)
        = StoredIndex.after ix₁ (rows.map .insert) :=
      congrArg (fun jx => StoredIndex.after jx (rows.map .insert)) hApply
    rw [hAfter, List.map_cons, List.map_cons, StoredIndex.replies, hApply, hReply, hReplies]
    exact ⟨rfl, hHolds', hFiling'.trans hFiling⟩

/-- A scan of the ordered index over rows gives the tuples that the computed index over the query
that lists them gives, sorted. -/
theorem tuples_eq_sorted_query {name stored computed : String} {steps : List Declaration}
    {t : Table} {d e : IndexDef} (hTable : Table.declare name steps = .ok t)
    (hStored : t.index? stored = some d) (hType : d.type = .btree) (hUnique : d.unique = false)
    (hComputed : t.index? computed = some e) (hQuery : e.type = .query)
    (hColumns : e.columns = d.columns) (settings : Settings) {rows : List Row}
    (hIds : (rows.map Row.id).Nodup) (hValid : ∀ r ∈ rows, t.validate r = .ok ()) (width : Nat)
    (ordered : Bool) (lower upper : Option Bound) :
    ∃ ix filled cx found answered, create t stored settings = .ok ix ∧
      StoredIndex.replies ix (rows.map .insert) = rows.map (fun _ => .inserted (.ok ())) ∧
      StoredIndex.after ix (rows.map .insert) = filled ∧
      ComputedIndex.create t computed
        (.query (.values { width, rows := rows.map Row.values, ordered })) settings = .ok cx ∧
      (Index.rows filled lower upper).result.1 = .ok found ∧
      (Index.rows cx lower upper).result.1 = .ok answered ∧
      found.map Row.values = (answered.map Row.values).mergeSort fun a b =>
        (filled.order.compareRows (Row.dummy a) (Row.dummy b)).isLE := by
  obtain ⟨ix, o, hCreate, hOrder, -, hFiling, -, hEmpty⟩ :=
    exists_create hTable hStored hType settings
  have hTableEq : ix.store.table = t := congrArg Filing.table hFiling
  have hUniqueEq : ix.tree.unique = false := (congrArg Filing.unique hFiling).trans hUnique
  obtain ⟨hReplies, hHolds, hSame⟩ := hEmpty.fill hUniqueEq hIds (by rwa [hTableEq])
  generalize hFilled : StoredIndex.after ix (rows.map .insert) = filled at hHolds hSame
  rw [List.nil_append] at hHolds
  rw [hFiling] at hSame
  obtain rfl : filled.order = o := congrArg Filing.order hSame
  have hOrder' : RowOrder.ofIndex t e settings.nulls = .ok filled.order := by
    rw [← hOrder, RowOrder.ofIndex, RowOrder.ofIndex, Table.keyColumns, Table.keyColumns, hColumns]
  refine ⟨ix, filled, _, _, filled.order.rowsOf t.width lower upper (rows.map Row.values), hCreate,
    hReplies, hFilled, ComputedIndex.create_eq hComputed hQuery hOrder',
    hHolds.rows_eq_mergeSort lower upper,
    @ComputedIndex.rows_eq _ (.values { width, rows := rows.map Row.values, ordered }) rfl lower
      upper, ?_⟩
  have hWidths : ∀ r ∈ rows, r.width = t.width :=
    fun r hr => Table.width_eq_of_validate (hValid r hr)
  rw [filled.order.map_values_rowsOf hWidths]
  exact List.map_mergeSort fun _ _ _ _ => rfl

/-- A view in descending order with NULLs first, where the bound and the keys are of three types. -/
theorem tuples_sorted_in_view : ∃ t ix filled cx found answered,
    Table.declare "V" [.kind .view, .column "K" .int64, .nullable ["K"],
      .orderedIndex "byK" [⟨"K", .descending⟩] false, .queryIndex "all" [⟨"K", .descending⟩]] = .ok t ∧
    create t "byK" { nulls := .first } = .ok ix ∧
    StoredIndex.replies ix [.insert ⟨1, [.int64 7]⟩, .insert ⟨2, [.null]⟩, .insert ⟨3, [.int32 9]⟩,
      .insert ⟨4, [.int32 7]⟩] = List.replicate 4 (.inserted (.ok ())) ∧
    StoredIndex.after ix [.insert ⟨1, [.int64 7]⟩, .insert ⟨2, [.null]⟩, .insert ⟨3, [.int32 9]⟩,
      .insert ⟨4, [.int32 7]⟩] = filled ∧
    ComputedIndex.create t "all" (.query (.values
      ⟨1, [[.int64 7], [.null], [.int32 9], [.int32 7]], false⟩)) { nulls := .first } = .ok cx ∧
    (Index.rows filled none (some ⟨[some (.float64 ⟨0x401c000000000000⟩)]⟩)).result.1 = .ok found ∧
    (Index.rows cx none (some ⟨[some (.float64 ⟨0x401c000000000000⟩)]⟩)).result.1 = .ok answered ∧
    found.map Row.values = (answered.map Row.values).mergeSort fun a b =>
      (filled.order.compareRows (Row.dummy a) (Row.dummy b)).isLE := by
  obtain ⟨ix, filled, cx, found, answered, hAll⟩ := @tuples_eq_sorted_query "V" "byK" "all"
    [.kind .view, .column "K" .int64, .nullable ["K"],
      .orderedIndex "byK" [⟨"K", .descending⟩] false, .queryIndex "all" [⟨"K", .descending⟩]]
    _ _ _ rfl rfl rfl rfl rfl rfl rfl { nulls := .first }
    [⟨1, [.int64 7]⟩, ⟨2, [.null]⟩, ⟨3, [.int32 9]⟩, ⟨4, [.int32 7]⟩] (by decide)
    (by simp only [List.forall_mem_cons]; exact ⟨rfl, rfl, rfl, rfl, by simp⟩) 1 false none
    (some ⟨[some (.float64 ⟨0x401c000000000000⟩)]⟩)
  exact ⟨_, ix, filled, cx, found, answered, rfl, hAll⟩

end OrderedIndex

end IndexScan

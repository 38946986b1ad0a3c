import IndexScan.Proofs.Index.Hashed
import IndexScan.Proofs.Index.Scan

/-!
# A hashed index agrees with an ordered one

A hashed and an ordered index over the same columns take and refuse the same rows, so after any
calls they hold one ledger.  What tells their keys apart is not the same, equality and hash on the
one side and an order on the other, but it comes to the same (`RowOrder.compareKeys_eq_iff`).  When
the bounds of a scan pin a key, all rows in range are equal in the order, and an ordered index
leaves equal rows in the order of the ledger, which is the order of the hashed index.
-/

namespace IndexScan

/-! ### The same columns -/

/-- The places of key columns depend on their names only. -/
theorem Table.map_fst_keyColumns {t : Table} {cs : List KeyColumn}
    {columns : List (Nat × Direction)} (h : cs.mapM t.keyColumn = .ok columns) :
    columns.map Prod.fst = (cs.map KeyColumn.name).map fun name => (t.position? name).getD 0 := by
  induction cs generalizing columns with
  | nil =>
    cases h
    rfl
  | cons c cs ih =>
    rw [List.mapM_cons] at h
    obtain ⟨column, hColumn, h⟩ := exists_of_bind_eq_ok h
    obtain ⟨rest, hRest, h⟩ := exists_of_bind_eq_ok h
    cases h
    refine List.cons_eq_cons.2 ⟨?_, ih hRest⟩
    rw [keyColumn] at hColumn
    split at hColumn
    · next i hi =>
      cases hColumn
      show i = (t.position? c.name).getD 0
      rw [hi]
      rfl
    · cases hColumn

namespace RowOrder

/-- Two orders go by the same columns, each in its own directions. -/
def SameColumns (o p : RowOrder) : Prop := o.columns.map Prod.fst = p.columns.map Prod.fst

variable {o p : RowOrder} {ρ : Type} [Cells ρ]

theorem sameColumns_of_names {t : Table} {d e : IndexDef} {nulls nulls' : NullPlacement}
    (hNames : d.columns.map KeyColumn.name = e.columns.map KeyColumn.name)
    (ho : ofIndex t d nulls = .ok o) (hp : ofIndex t e nulls' = .ok p) : o.SameColumns p := by
  rw [ofIndex, Table.keyColumns] at ho hp
  cases hd : d.columns.mapM t.keyColumn with
  | error err =>
    rw [hd] at ho
    cases ho
  | ok columns =>
    cases he : e.columns.mapM t.keyColumn with
    | error err =>
      rw [he] at hp
      cases hp
    | ok columns' =>
      rw [hd] at ho
      rw [he] at hp
      cases ho
      cases hp
      rw [SameColumns, Table.map_fst_keyColumns hd, Table.map_fst_keyColumns he, hNames]

theorem SameColumns.keyOf_eq (h : o.SameColumns p) (a : ρ) : o.keyOf a = p.keyOf a := by
  have hKey : ∀ q : RowOrder, q.keyOf a
      = (q.columns.map Prod.fst).map fun i => (Cells.cell? a i).getD .null := by
    intro q
    rw [keyOf, List.map_map]
    rfl
  rw [hKey, hKey, h]

theorem SameColumns.covers_eq (h : o.SameColumns p) (a : ρ) : o.covers a = p.covers a := by
  have hAll : ∀ q : RowOrder, q.covers a
      = (q.columns.map Prod.fst).all fun i => (Cells.cell? a i).isSome := by
    intro q
    rw [covers, List.all_map]
    rfl
  rw [hAll, hAll, h]

theorem compareRows_eq_iff {σ : Type} [Cells σ] {a : ρ} {b : σ} (ha : o.covers a = true)
    (hb : o.covers b = true) : o.compareRows a b = .eq ↔ o.keyOf a == o.keyOf b := by
  rw [compareRows_eq_keys ha hb]
  exact compareKeys_eq_iff (full_keyOf o a) (full_keyOf o b)

/-- Directions do not matter to what pins a key. -/
theorem SameColumns.pins (h : o.SameColumns p) {lower upper : Option Bound}
    (hPins : o.Pins lower upper) : p.Pins lower upper := by
  obtain ⟨l, u, hLower, hUpper, hl, hu, hEq⟩ := hPins
  rw [compareRows_eq_iff hl hu, h.keyOf_eq, h.keyOf_eq] at hEq
  rw [h.covers_eq] at hl hu
  exact ⟨l, u, hLower, hUpper, hl, hu, (compareRows_eq_iff hl hu).2 hEq⟩

/-- The rows between bounds that pin a key are those with the key. -/
theorem inRange_of_pinned {l u : Bound} (hl : o.covers l = true) (hu : o.covers u = true)
    (hEq : o.compareRows l u = .eq) {r : Row} (hr : o.covers r = true) :
    o.inRange (some l) (some u) r = (o.keyOf r == o.keyOf l) := by
  have hUpper : o.compareRows r u = o.compareRows r l := by
    rw [compareRows_eq_keys hr hu, compareRows_eq_keys hr hl]
    rw [compareRows_eq_keys hl hu] at hEq
    exact (Std.TransCmp.congr_right hEq).symm
  rw [Bool.eq_iff_iff, ← compareRows_eq_iff hr hl, inRange]
  simp only [Option.all_some, hUpper]
  cases o.compareRows r l <;> decide

end RowOrder

namespace Filing

variable {f g : Filing}

/-- What a filing decides depends on the keys of the rows only. -/
theorem refusal_congr (hTable : f.table = g.table) (hOrder : f.order.SameColumns g.order)
    (hUnique : f.unique = g.unique) : f.refusal = g.refusal := by
  funext index log r
  have hKeyOf : ∀ q : Row, f.order.keyOf q = g.order.keyOf q := hOrder.keyOf_eq
  simp only [refusal, hTable, hUnique, hKeyOf]

theorem ledger_congr (h : f.refusal = g.refusal) : f.ledger = g.ledger := by
  have hRecord : f.record = g.record := by
    funext log op
    cases op with
    | insert r =>
      have hAccepts : f.accepts log r = g.accepts log r := by
        rw [Bool.eq_iff_iff, @accepts_iff f "" log r, @accepts_iff g "" log r, h]
      rw [record, record, hAccepts]
    | _ => rfl
  funext ops
  rw [ledger, ledger, hRecord]

end Filing

/-- Two failures are the same, apart from the name of the index. -/
inductive Error.SameApart (a b : String) : Error → Error → Prop
  | same (e : Error) : SameApart a b e e
  | stored (id : RowId) : SameApart a b (.internal s!"row {id} already stored in index {a}")
      (.internal s!"row {id} already stored in index {b}")
  | taken (key : Value) : SameApart a b (.duplicateKey a key) (.duplicateKey b key)

theorem Filing.refusal_cases (f : Filing) (a b : String) (log : List Row) (r : Row) :
    (f.refusal a log r = none ∧ f.refusal b log r = none) ∨
      ∃ e e', f.refusal a log r = some e ∧ f.refusal b log r = some e' ∧ e.SameApart a b e' := by
  rw [refusal, refusal]
  cases f.table.validate r with
  | error e => exact Or.inr ⟨e, e, rfl, rfl, .same e⟩
  | ok _ =>
    cases log.any (·.id == r.id) with
    | true => exact Or.inr ⟨_, _, rfl, rfl, .stored r.id⟩
    | false =>
      cases f.unique && log.any (f.order.keyOf · == f.order.keyOf r) with
      | true => exact Or.inr ⟨_, _, rfl, rfl, .taken _⟩
      | false => exact Or.inl ⟨rfl, rfl⟩

/-- Two indexes that keep one ledger, and whose filings refuse the same rows, take and refuse a row
alike. -/
theorem StoredIndex.Follows.insert_alike {ι κ : Type} [StoredIndex ι] [StoredIndex κ]
    {f g : Filing} {a b : String} {H : ι → List Row → Prop} {K : κ → List Row → Prop} {ix : ι}
    {jx : κ} {log : List Row} (h : Follows f a H) (h' : Follows g b K)
    (hRefusal : f.refusal = g.refusal) (hH : H ix log) (hK : K jx log) (r : Row) :
    (∃ ix' jx', insert ix r = (.ok (), ix') ∧ insert jx r = (.ok (), jx')) ∨
      ∃ e e', insert ix r = (.error e, ix) ∧ insert jx r = (.error e', jx) ∧
        e.SameApart a b e' := by
  rcases g.refusal_cases a b log r with ⟨hNone, hNone'⟩ | ⟨e, e', hSome, hSome', hSame⟩
  · rw [← hRefusal] at hNone
    obtain ⟨ix', hInsert, -⟩ := h.exists_insert hH hNone
    obtain ⟨jx', hInsert', -⟩ := h'.exists_insert hK hNone'
    exact Or.inl ⟨ix', jx', hInsert, hInsert'⟩
  · rw [← hRefusal] at hSome
    exact Or.inr ⟨e, e', h.insert_refused hH hSome, h'.insert_refused hK hSome', hSame⟩

/-! ### Scans that pin a key -/

/-- A scan of an ordered index between bounds that pin a key gives the rows with the key as they
came. -/
theorem OrderedIndex.Holds.rows_of_pinned {ix : OrderedIndex} {log : List Row} (h : ix.Holds log)
    {l u : Bound} (hl : ix.order.covers l = true) (hu : ix.order.covers u = true)
    (hEq : ix.order.compareRows l u = .eq) : (Index.rows ix (some l) (some u)).result.1
      = .ok (ix.order.withKey log (ix.order.keyOf l)) := by
  obtain ⟨stops, below, inside, above, hArranges, hCuts⟩ := h.exists_cuts (some l) (some u)
  have hRange : log.filter (ix.order.inRange (some l) (some u))
      = ix.order.withKey log (ix.order.keyOf l) :=
    List.filter_congr fun r hr => RowOrder.inRange_of_pinned hl hu hEq (h.covers hr)
  rw [hRange] at hArranges
  have hSame : ∀ q ∈ ix.order.withKey log (ix.order.keyOf l),
      ∀ r ∈ ix.order.withKey log (ix.order.keyOf l), (ix.order.compareRows q r == .eq) = true := by
    intro q hq r hr
    obtain ⟨hq, hqKey⟩ := List.mem_filter.1 hq
    obtain ⟨hr, hrKey⟩ := List.mem_filter.1 hr
    rw [beq_iff_eq, RowOrder.compareRows_eq_iff (h.covers hq) (h.covers hr)]
    exact BEq.trans hqKey (BEq.symm hrKey)
  rw [rows_eq hCuts]
  refine congrArg Except.ok ?_
  cases hRows : inside.map Stop.row with
  | nil =>
    rw [hRows] at hArranges
    exact (List.nil_perm.1 hArranges.perm).symm
  | cons q rows =>
    rw [hRows] at hArranges
    have hq := hArranges.perm.subset List.mem_cons_self
    have hStable := hArranges.stable q List.mem_cons_self
    rwa [List.filter_eq_self.2 fun r hr => hSame q hq r (hArranges.perm.subset hr),
      List.filter_eq_self.2 (hSame q hq)] at hStable

/-! ### Two indexes with one ledger -/

namespace HashedIndex

/-- A hashed index with the name `a` and an ordered one with the name `b` that insertions, removals
and scans for one key cannot tell apart.  The order says which bounds pin a key. -/
structure Agrees (o : RowOrder) (a b : String) (hx : HashedIndex) (ox : OrderedIndex) : Prop where
  insert : ∀ r, (∃ hx' ox', hx.insert r = (.ok (), hx') ∧ ox.insert r = (.ok (), ox')) ∨
    ∃ e e', hx.insert r = (.error e, hx) ∧ ox.insert r = (.error e', ox) ∧ e.SameApart a b e'
  erase : ∀ id, (hx.erase id).1 = (ox.erase id).1
  scan_ok : ∀ lower upper,
    (∃ c, (Index.scan hx lower upper).result.1 = .ok c) ↔ o.Pins lower upper
  /-- A scan that is refused is not counted. -/
  scan_unsupported : ∀ lower upper, ¬ o.Pins lower upper →
    ∃ message, (Index.scan hx lower upper).result = (.error (.unsupported message), hx)
  rows : ∀ lower upper, o.Pins lower upper → ∃ rows,
    (Index.rows hx lower upper).result.1 = .ok rows ∧
    (Index.rows ox lower upper).result.1 = .ok rows

variable {hx : HashedIndex} {ox : OrderedIndex} {log : List Row}

theorem Holds.scan_ok_iff (h : hx.Holds log) (lower upper : Option Bound) :
    (∃ c, (Index.scan hx lower upper).result.1 = .ok c) ↔ hx.order.Pins lower upper := by
  by_cases hPins : hx.order.Pins lower upper
  · obtain ⟨l, u, -, -, -, -, -, hKey⟩ := exists_pinnedKey hPins
    refine iff_of_true ⟨{ waiting := hx.order.withKey log (hx.order.keyOf l) }, ?_⟩ hPins
    rw [h.scan_of_ok hKey]
  · obtain ⟨message, hKey⟩ := exists_pinnedKey_error hPins
    refine iff_of_false ?_ hPins
    rw [scan_of_error hKey]
    exact nofun

theorem Holds.agrees (h : hx.Holds log) (h' : ox.Holds log)
    (hOrder : hx.order.SameColumns ox.order) (hRefusal : hx.filing.refusal = ox.filing.refusal) :
    Agrees hx.order hx.store.index ox.store.index hx ox where
  insert := (follows _ _).insert_alike (OrderedIndex.follows _ _) hRefusal ⟨h, rfl, rfl⟩
    ⟨h', rfl, rfl⟩
  erase id := (h.erase id).1.trans (h'.erase id).1.symm
  scan_ok := h.scan_ok_iff
  scan_unsupported lower upper hPins := by
    obtain ⟨message, hKey⟩ := exists_pinnedKey_error hPins
    exact ⟨message, scan_of_error hKey⟩
  rows lower upper hPins := by
    obtain ⟨l, u, rfl, rfl, hl, hu, hEq, hKey⟩ := exists_pinnedKey hPins
    obtain ⟨l', u', hLower, hUpper, hl', hu', hEq'⟩ := hOrder.pins hPins
    obtain rfl := Option.some.inj hLower
    obtain rfl := Option.some.inj hUpper
    refine ⟨hx.order.withKey log (hx.order.keyOf l), by rw [h.rows_eq, hKey]; rfl, ?_⟩
    have hKeyOf : ∀ r : Row, hx.order.keyOf r = ox.order.keyOf r := hOrder.keyOf_eq
    rw [h'.rows_of_pinned hl' hu' hEq', hOrder.keyOf_eq l, RowOrder.withKey, RowOrder.withKey]
    simp only [hKeyOf]

/-- After any calls of both, a hashed and an ordered index over the same columns agree. -/
theorem agrees_of_history {name hashed ordered : String} {steps : List Declaration} {t : Table}
    {d e : IndexDef} (hTable : Table.declare name steps = .ok t)
    (hHashed : t.index? hashed = some d) (hOrdered : t.index? ordered = some e)
    (hHash : d.type = .hash) (hTree : e.type = .btree)
    (hColumns : d.columns.map KeyColumn.name = e.columns.map KeyColumn.name)
    (hUnique : d.unique = e.unique) (settings settings' : Settings) :
    ∃ hx ox o, create t hashed settings = .ok hx ∧
      OrderedIndex.create t ordered settings' = .ok ox ∧
      RowOrder.ofIndex t d settings.nulls = .ok o ∧
      ∀ ops, Agrees o hashed ordered (StoredIndex.after hx ops) (StoredIndex.after ox ops) := by
  obtain ⟨hx, o, hCreate, ho, -, hFiling, hName, hEmpty⟩ :=
    exists_create hTable hHashed hHash settings
  obtain ⟨ox, o', hCreate', ho', -, hFiling', hName', hEmpty'⟩ :=
    OrderedIndex.exists_create hTable hOrdered hTree settings'
  refine ⟨hx, ox, o, hCreate, hCreate', ho, fun ops => ?_⟩
  have hOrder := RowOrder.sameColumns_of_names hColumns ho ho'
  have hRefusal : Filing.refusal ⟨t, o, d.unique⟩ = Filing.refusal ⟨t, o', e.unique⟩ :=
    Filing.refusal_congr rfl hOrder hUnique
  have hLedger := congrFun (Filing.ledger_congr hRefusal) ops
  obtain ⟨h, hSame, hIndex⟩ := (follows _ _).after ⟨hEmpty, hFiling, hName⟩ ops
  obtain ⟨h', hSame', hIndex'⟩ := (OrderedIndex.follows _ _).after ⟨hEmpty', hFiling', hName'⟩ ops
  rw [Filing.ledger, Filing.ledger] at hLedger
  rw [← hLedger] at h'
  have hOrderOf : (StoredIndex.after hx ops).order = o := congrArg Filing.order hSame
  have hOrderOf' : (StoredIndex.after ox ops).order = o' := congrArg Filing.order hSame'
  rw [← hIndex, ← hIndex', ← hOrderOf]
  refine Holds.agrees h h' ?_ (by rw [hSame, hSame', hRefusal])
  rw [hOrderOf, hOrderOf']
  exact hOrder

/-- One number in three types, in a hashed and a descending ordered index: a scan for it gives the
same rows from both, and bounds that differ pin nothing. -/
theorem agrees_on_mixed_types : ∃ t hx ox,
    Table.declare "T" [.column "K" .int64, .nullable ["K"], .hashIndex "atK" ["K"] false,
      .orderedIndex "byK" [⟨"K", .descending⟩] false] = .ok t ∧
    create t "atK" {} = .ok hx ∧ OrderedIndex.create t "byK" { nulls := .first } = .ok ox ∧
    (∃ rows, (Index.rows (StoredIndex.after hx [.insert ⟨1, [.int64 7]⟩, .insert ⟨2, [.int32 7]⟩,
        .insert ⟨3, [.null]⟩, .erase 1, .insert ⟨1, [.int64 7]⟩])
        (some ⟨[some (.float64 ⟨0x401c000000000000⟩)]⟩) (some ⟨[some (.int32 7)]⟩)).result.1
          = .ok rows ∧
      (Index.rows (StoredIndex.after ox [.insert ⟨1, [.int64 7]⟩, .insert ⟨2, [.int32 7]⟩,
        .insert ⟨3, [.null]⟩, .erase 1, .insert ⟨1, [.int64 7]⟩])
        (some ⟨[some (.float64 ⟨0x401c000000000000⟩)]⟩) (some ⟨[some (.int32 7)]⟩)).result.1
          = .ok rows) ∧
    ∃ message, (Index.scan (StoredIndex.after hx [.insert ⟨1, [.int64 7]⟩,
      .insert ⟨2, [.int32 7]⟩, .insert ⟨3, [.null]⟩, .erase 1, .insert ⟨1, [.int64 7]⟩])
      (some ⟨[some (.int32 7)]⟩) (some ⟨[some (.int32 8)]⟩)).result.1
        = .error (.unsupported message) := by
  obtain ⟨hx, ox, o, hCreate, hCreate', hOrder, hAgrees⟩ := @agrees_of_history "T" "atK" "byK"
    [.column "K" .int64, .nullable ["K"], .hashIndex "atK" ["K"] false,
      .orderedIndex "byK" [⟨"K", .descending⟩] false] _ _ _ rfl rfl rfl rfl rfl rfl rfl {}
    { nulls := .first }
  obtain rfl := Except.ok.inj hOrder
  have hAll := hAgrees [.insert ⟨1, [.int64 7]⟩, .insert ⟨2, [.int32 7]⟩, .insert ⟨3, [.null]⟩,
    .erase 1, .insert ⟨1, [.int64 7]⟩]
  have hOpen : ¬ RowOrder.Pins ⟨[(0, .ascending)], .low⟩ (some ⟨[some (.int32 7)]⟩)
      (some ⟨[some (.int32 8)]⟩) := by
    rintro ⟨l, u, hl, hu, -, -, hEq⟩
    cases hl
    cases hu
    cases hEq
  obtain ⟨message, hScan⟩ := hAll.scan_unsupported _ _ hOpen
  exact ⟨_, hx, ox, rfl, hCreate, hCreate',
    hAll.rows _ _ ⟨_, _, rfl, rfl, rfl, rfl, rfl⟩, message, congrArg Prod.fst hScan⟩

end HashedIndex

end IndexScan

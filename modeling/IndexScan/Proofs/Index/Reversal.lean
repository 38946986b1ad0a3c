import IndexScan.Proofs.Index.Equality

/-!
# An index turned around

When every key column is sorted the other way and NULL goes to the other end, rows compare the other
way around, with bounds as well (`RowOrder.compareRows_reversed`).  Two unique indexes that differ
by this take and refuse the same rows, and a scan of one gives the rows of the other backwards.
That they are unique is needed: rows with equal keys stay in the order in which they came, whichever
way the index is sorted.
-/

namespace IndexScan

/-! ### The order turned around -/

namespace Direction

def flip : Direction → Direction
  | ascending => descending
  | descending => ascending

theorem apply_flip (d : Direction) (x : Ordering) : d.flip.apply x = (d.apply x).swap := by
  cases d with
  | ascending => rfl
  | descending => exact Ordering.swap_swap.symm

end Direction

namespace NullPlacement

/-- Where NULL has to stand for the columns to be turned around with it.  A placement that follows
the direction of a column turns around by itself. -/
def dual : NullPlacement → NullPlacement
  | low => low
  | high => high
  | first => last
  | last => first

variable (nulls : NullPlacement) (d : Direction)

theorem nullVsValue_dual : nulls.dual.nullVsValue d.flip = (nulls.nullVsValue d).swap := by
  cases nulls with
  | low => exact d.apply_flip .lt
  | high => exact d.apply_flip .gt
  | first => rfl
  | last => rfl

theorem compareCells_dual (a b : Value) :
    nulls.dual.compareCells d.flip a b = (nulls.compareCells d a b).swap := by
  rw [compareCells, compareCells, nullVsValue_dual, d.apply_flip]
  cases a.isNull <;> cases b.isNull <;> rfl

end NullPlacement

def KeyColumn.flip (c : KeyColumn) : KeyColumn := { c with direction := c.direction.flip }

theorem Table.mapM_keyColumn_flip (t : Table) (cs : List KeyColumn) :
    (cs.map KeyColumn.flip).mapM t.keyColumn
      = (cs.mapM t.keyColumn).map fun columns => columns.map (Prod.map id Direction.flip) := by
  induction cs with
  | nil => rfl
  | cons c cs ih =>
    have hFlip : t.keyColumn c.flip = (t.keyColumn c).map (Prod.map id Direction.flip) := by
      rw [keyColumn, keyColumn, show c.flip.name = c.name from rfl]
      cases t.position? c.name <;> rfl
    rw [List.map_cons, List.mapM_cons, List.mapM_cons, hFlip, ih]
    cases t.keyColumn c with
    | error e => rfl
    | ok column => cases cs.mapM t.keyColumn <;> rfl

namespace RowOrder

/-- The order that sorts every column the other way. -/
def reversed (o : RowOrder) : RowOrder where
  columns := o.columns.map (Prod.map id Direction.flip)
  nulls := o.nulls.dual

variable {o : RowOrder}

theorem ofIndex_reversed {t : Table} {d e : IndexDef} {nulls : NullPlacement}
    (hColumns : e.columns = d.columns.map KeyColumn.flip) (ho : ofIndex t d nulls = .ok o) :
    ofIndex t e nulls.dual = .ok o.reversed := by
  rw [ofIndex, Table.keyColumns] at ho ⊢
  rw [hColumns, Table.mapM_keyColumn_flip]
  cases hd : d.columns.mapM t.keyColumn with
  | error err =>
    rw [hd] at ho
    cases ho
  | ok columns =>
    rw [hd] at ho
    cases ho
    rfl

theorem sameColumns_reversed (o : RowOrder) : o.SameColumns o.reversed := by
  rw [SameColumns, reversed, List.map_map]
  rfl

theorem compareCellsFrom_reversed (nulls : NullPlacement) (a b : Nat → Option Value)
    (cols : List (Nat × Direction)) :
    compareCellsFrom nulls.dual a b (cols.map (Prod.map id Direction.flip))
      = (compareCellsFrom nulls a b cols).swap := by
  induction cols with
  | nil => rfl
  | cons c rest ih =>
    rw [List.map_cons, compareCellsFrom, compareCellsFrom, Prod.map_fst, id]
    cases a c.1 with
    | none => rfl
    | some x =>
      cases b c.1 with
      | none => rfl
      | some y =>
        rw [Ordering.swap_then, ← ih, ← nulls.compareCells_dual]
        rfl

section

variable {ρ σ : Type} [Cells ρ] [Cells σ]

/-- Rows and bounds compare the other way around when their order is turned around. -/
theorem compareRows_reversed (o : RowOrder) (a : ρ) (b : σ) :
    o.reversed.compareRows a b = (o.compareRows a b).swap := compareCellsFrom_reversed ..

/-- What is in range stays so when the bounds change places with the order. -/
theorem inRange_reversed (o : RowOrder) (lower upper : Option Bound) (a : ρ) :
    o.reversed.inRange upper lower a = o.inRange lower upper a := by
  have hSwap : ∀ b : Bound, (o.reversed.compareRows a b != .lt) = (o.compareRows a b != .gt) ∧
      (o.reversed.compareRows a b != .gt) = (o.compareRows a b != .lt) := by
    intro b
    rw [compareRows_reversed]
    cases o.compareRows a b <;> exact ⟨rfl, rfl⟩
  simp only [inRange, hSwap, Bool.and_comm]

end

/-- Rows without equal keys among them are arranged in one way only, and backwards when the order is
turned around. -/
theorem Arranges.eq_reverse {rows rows' log : List Row} (h : o.Arranges rows log)
    (h' : o.reversed.Arranges rows' log) (hCovers : ∀ r ∈ log, o.covers r = true)
    (hKeys : ∀ q ∈ log, ∀ r ∈ log, o.keyOf q == o.keyOf r → q = r) : rows' = rows.reverse := by
  have hBackwards : rows.reverse.Pairwise fun a b => (o.reversed.compareRows a b).isLE := by
    refine List.pairwise_reverse.2 (h.ascending.imp fun {a b} hLe => ?_)
    rwa [compareRows_reversed, ← compareRows_swap]
  refine (h'.perm.trans (h.perm.symm.trans rows.reverse_perm.symm)).eq_of_pairwise ?_ h'.ascending
    hBackwards
  intro a b ha hb hab hba
  have ha := h'.perm.subset ha
  have hb := h.perm.subset (List.mem_reverse.1 hb)
  refine hKeys a ha b hb ((compareRows_eq_iff (hCovers a ha) (hCovers b hb)).1 ?_)
  rw [compareRows_reversed] at hab hba
  rw [compareRows_swap b a, Ordering.swap_swap] at hba
  cases hEq : o.compareRows a b with
  | eq => rfl
  | lt =>
    rw [hEq] at hab
    cases hab
  | gt =>
    rw [hEq] at hba
    cases hba

end RowOrder

/-! ### Unique indexes -/

namespace Filing

/-- No key belongs to two rows. -/
def KeysApart (f : Filing) (log : List Row) : Prop :=
  ∀ q ∈ log, ∀ r ∈ log, f.order.keyOf q == f.order.keyOf r → q = r

variable {f : Filing} {log : List Row}

theorem KeysApart.record (h : f.KeysApart log) (hUnique : f.unique = true) (op : Operation) :
    f.KeysApart (f.record log op) := by
  cases op with
  | insert r =>
    rw [Filing.record]
    split
    · next hAccepts =>
      have hNew : ∀ q ∈ log, ¬ (f.order.keyOf q == f.order.keyOf r) = true := by
        simp only [accepts, hUnique, Bool.true_and, Bool.and_eq_true, Bool.not_eq_true'] at hAccepts
        exact List.any_eq_false.1 hAccepts.2
      simp only [KeysApart, List.mem_append, List.mem_singleton]
      rintro p (hp | rfl) q (hq | rfl) hKey
      · exact h p hp q hq hKey
      · exact absurd hKey (hNew p hp)
      · exact absurd (BEq.symm hKey) (hNew q hq)
      · rfl
    · exact h
  | erase id =>
    exact fun p hp q hq => h p (List.mem_filter.1 hp).1 q (List.mem_filter.1 hq).1
  | visit => exact h

theorem KeysApart.foldl_record (h : f.KeysApart log) (hUnique : f.unique = true)
    (ops : List Operation) : f.KeysApart (ops.foldl f.record log) := by
  induction ops generalizing log with
  | nil => exact h
  | cons op ops ih => exact ih (h.record hUnique op)

theorem keysApart_ledger (hUnique : f.unique = true) (ops : List Operation) :
    f.KeysApart (f.ledger ops) :=
  KeysApart.foldl_record (fun _ hq => absurd hq List.not_mem_nil) hUnique ops

end Filing

namespace OrderedIndex

/-- Two indexes, with the names `a` and `b`, that take and give back the same rows, where a scan of
the second one is a scan of the first one backwards. -/
structure Mirrors (a b : String) (ix jx : OrderedIndex) : Prop where
  insert : ∀ r, (∃ ix' jx', ix.insert r = (.ok (), ix') ∧ jx.insert r = (.ok (), jx')) ∨
    ∃ e e', ix.insert r = (.error e, ix) ∧ jx.insert r = (.error e', jx) ∧ e.SameApart a b e'
  erase : ∀ id, (ix.erase id).1 = (jx.erase id).1
  rows : ∀ lower upper, ∃ rows, (Index.rows ix lower upper).result.1 = .ok rows ∧
    (Index.rows jx upper lower).result.1 = .ok rows.reverse

variable {ix jx : OrderedIndex} {log : List Row}

theorem Holds.mirrors (h : ix.Holds log) (h' : jx.Holds log)
    (hOrder : jx.order = ix.order.reversed) (hRefusal : ix.filing.refusal = jx.filing.refusal)
    (hApart : ix.filing.KeysApart log) : Mirrors ix.store.index jx.store.index ix jx where
  insert := (follows _ _).insert_alike (follows _ _) hRefusal ⟨h, rfl, rfl⟩ ⟨h', rfl, rfl⟩
  erase id := (h.erase id).1.trans (h'.erase id).1.symm
  rows lower upper := by
    obtain ⟨_, _, inside, _, hArranges, hCuts⟩ := h.exists_cuts lower upper
    obtain ⟨_, _, inside', _, hArranges', hCuts'⟩ := h'.exists_cuts upper lower
    have hInRange : jx.order.inRange upper lower = ix.order.inRange (ρ := Row) lower upper := by
      funext r
      rw [hOrder, RowOrder.inRange_reversed]
    rw [hInRange, hOrder] at hArranges'
    refine ⟨inside.map Stop.row, rows_eq hCuts, ?_⟩
    rw [rows_eq hCuts', hArranges.eq_reverse hArranges' (fun r hr => h.covers (List.mem_filter.1 hr).1)
      fun q hq r hr => hApart q (List.mem_filter.1 hq).1 r (List.mem_filter.1 hr).1]

/-- Rows and bounds compare the other way around in an order that is turned around.  After any
calls of two unique indexes of which one has the order of the other turned around, the two mirror
each other. -/
theorem mirrors_of_history {name index turned : String} {steps : List Declaration} {t : Table}
    {d e : IndexDef} (hTable : Table.declare name steps = .ok t)
    (hIndex : t.index? index = some d) (hTurned : t.index? turned = some e)
    (hType : d.type = .btree) (hType' : e.type = .btree) (hUnique : d.unique = true)
    (hUnique' : e.unique = true) (hColumns : e.columns = d.columns.map KeyColumn.flip)
    {settings settings' : Settings} (hNulls : settings'.nulls = settings.nulls.dual) :
    (∀ (o : RowOrder) {ρ σ : Type} [Cells ρ] [Cells σ] (a : ρ) (b : σ),
      o.reversed.compareRows a b = (o.compareRows a b).swap) ∧
    ∃ ix jx, create t index settings = .ok ix ∧ create t turned settings' = .ok jx ∧
      ∀ ops, Mirrors index turned (StoredIndex.after ix ops) (StoredIndex.after jx ops) := by
  refine ⟨fun o _ _ => o.compareRows_reversed, ?_⟩
  obtain ⟨ix, o, hCreate, ho, -, hFiling, hName, hEmpty⟩ :=
    exists_create hTable hIndex hType settings
  obtain ⟨jx, o', hCreate', ho', -, hFiling', hName', hEmpty'⟩ :=
    exists_create hTable hTurned hType' settings'
  refine ⟨ix, jx, hCreate, hCreate', fun ops => ?_⟩
  have hReversed := RowOrder.ofIndex_reversed hColumns ho
  rw [← hNulls] at hReversed
  obtain rfl := Except.ok.inj (hReversed.symm.trans ho')
  have hRefusal : Filing.refusal ⟨t, o, d.unique⟩ = Filing.refusal ⟨t, o.reversed, e.unique⟩ :=
    Filing.refusal_congr rfl o.sameColumns_reversed (hUnique.trans hUnique'.symm)
  have hLedger := congrFun (Filing.ledger_congr hRefusal) ops
  obtain ⟨h, hSame, hIndex⟩ := (follows _ _).after ⟨hEmpty, hFiling, hName⟩ ops
  obtain ⟨h', hSame', hIndex'⟩ := (follows _ _).after ⟨hEmpty', hFiling', hName'⟩ ops
  rw [Filing.ledger, Filing.ledger] at hLedger
  rw [← hLedger] at h'
  have hOrder : (StoredIndex.after ix ops).order = o := congrArg Filing.order hSame
  have hOrder' : (StoredIndex.after jx ops).order = o.reversed := congrArg Filing.order hSame'
  rw [← hIndex, ← hIndex']
  refine Holds.mirrors h h' (by rw [hOrder, hOrder']) (by rw [hSame, hSame', hRefusal]) ?_
  rw [hSame]
  exact Filing.keysApart_ledger hUnique ops

/-- Two key columns with NULL first and with NULL last, and bounds on the first column only. -/
theorem mirrors_with_nulls : ∃ t ix jx rows,
    Table.declare "T" [.column "K" .int64, .column "L" .int64, .nullable ["K"],
      .orderedIndex "up" [⟨"K", .ascending⟩, ⟨"L", .descending⟩] true,
      .orderedIndex "down" [⟨"K", .descending⟩, ⟨"L", .ascending⟩] true] = .ok t ∧
    create t "up" { nulls := .first } = .ok ix ∧
    create t "down" { nulls := .last, fanout := 4 } = .ok jx ∧
    RowOrder.compareRows ⟨[(0, .descending)], .last⟩ (Row.dummy [.int64 7])
      (⟨[some .null]⟩ : Bound) = .lt ∧
    (Index.rows (StoredIndex.after ix [.insert ⟨1, [.int64 7, .int64 1]⟩,
      .insert ⟨2, [.null, .int64 2]⟩, .insert ⟨3, [.int32 7, .int64 1]⟩]) none
      (some ⟨[some (.int64 7), none]⟩)).result.1 = .ok rows ∧
    (Index.rows (StoredIndex.after jx [.insert ⟨1, [.int64 7, .int64 1]⟩,
      .insert ⟨2, [.null, .int64 2]⟩, .insert ⟨3, [.int32 7, .int64 1]⟩])
      (some ⟨[some (.int64 7), none]⟩) none).result.1 = .ok rows.reverse := by
  obtain ⟨hCompare, ix, jx, hCreate, hCreate', hMirrors⟩ := @mirrors_of_history "T" "up" "down"
    [.column "K" .int64, .column "L" .int64, .nullable ["K"],
      .orderedIndex "up" [⟨"K", .ascending⟩, ⟨"L", .descending⟩] true,
      .orderedIndex "down" [⟨"K", .descending⟩, ⟨"L", .ascending⟩] true] _ _ _ rfl rfl rfl rfl rfl
    rfl rfl rfl { nulls := .first } { nulls := .last, fanout := 4 } rfl
  obtain ⟨rows, hRows, hRows'⟩ := (hMirrors [.insert ⟨1, [.int64 7, .int64 1]⟩,
    .insert ⟨2, [.null, .int64 2]⟩, .insert ⟨3, [.int32 7, .int64 1]⟩]).rows none
    (some ⟨[some (.int64 7), none]⟩)
  exact ⟨_, ix, jx, rows, rfl, hCreate, hCreate',
    hCompare ⟨[(0, .ascending)], .first⟩ (Row.dummy [.int64 7]) (⟨[some .null]⟩ : Bound), hRows,
    hRows'⟩

end OrderedIndex

end IndexScan

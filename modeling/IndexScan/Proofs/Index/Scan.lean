import IndexScan.Proofs.Index.Cursor
import IndexScan.Proofs.Index.Sorting

/-!
# Scans of an ordered index are exact and in order

A scan of an ordered index gives the rows of the ledger that are in range, sorted, and rows with
equal keys in the order in which they came.  A stop is in range when its row is: the key that the
tree keeps may have come with another row and be of other types, but a bound does not tell equal
keys apart.
-/

namespace IndexScan

theorem Place.map_map {α β γ : Type} (f : α → β) (g : β → γ) (p : Place α) :
    (p.map f).map g = p.map (g ∘ f) := by
  cases p <;> rfl

/-- Moves lead to the same places in lists of the same length. -/
theorem Place.path_cast {β : Type} {m n : Nat} (h : m = n) (f : Fin n → β) (ms : List Move) :
    ((.beforeFirst : Place (Fin m)).path ms).map
        (fun p => ((.ok p.isOn : Except Error Bool), p.map fun i => f (i.cast h)))
      = ((.beforeFirst : Place (Fin n)).path ms).map fun p => (.ok p.isOn, p.map f) := by
  subst h
  rfl

namespace OrderedCursor

namespace Cuts

variable {c : OrderedCursor} {ix : OrderedIndex} {stops below inside above : List Stop}

theorem recordRow (h : c.Cuts ix stops below inside above) :
    c.Cuts ix.recordRow stops below inside above :=
  ⟨h.lists.recordRow, h.eq, h.holds_below, h.holds_inside, h.holds_above, h.first, h.last⟩

theorem move_eq (h : c.Cuts ix stops below inside above) (p : Place (Fin inside.length))
    (m : Move) : ∃ ix', c.Cuts ix' stops below inside above ∧
      (Index.move ix (c.standing inside p) m).result
        = (.ok (p.step m).isOn, c.standing inside (p.step m), ix') := by
  have hMove : (Index.move ix (c.standing inside p) m).result
      = ix.counted (.ok (p.step m).isOn, c.standing inside (p.step m)) := by
    cases m with
    | next => exact congrArg ix.counted (h.next_eq p)
    | previous => exact congrArg ix.counted (h.previous_eq p)
  rw [hMove]
  cases (p.step m).isOn with
  | true => exact ⟨ix.recordRow, h.recordRow, rfl⟩
  | false => exact ⟨ix, h, rfl⟩

theorem travel_eq (h : c.Cuts ix stops below inside above) (p : Place (Fin inside.length))
    (ms : List Move) : (Index.travel ix (c.standing inside p) ms).result.1
      = (p.path ms).map fun q => (.ok q.isOn, q.map fun i => (inside.get i).row) := by
  induction ms generalizing ix p with
  | nil => rfl
  | cons m ms ih =>
    obtain ⟨ix', h', hMove⟩ := h.move_eq p m
    have hPlace : Index.place (ι := OrderedIndex) (c.standing inside (p.step m))
        = (p.step m).map fun i => (inside.get i).row := Place.map_map ..
    simp only [Index.travel, Traced.result_bind, hMove, Traced.result_pure, hPlace, ih h',
      Place.path, List.map_cons]

/-- The moves of a new cursor, told by the rows in range. -/
theorem travel_rows (h : c.Cuts ix stops below inside above) (ms : List Move) :
    (Index.travel ix (c.standing inside .beforeFirst) ms).result.1
      = ((.beforeFirst : Place (Fin (inside.map Stop.row).length)).path ms).map fun p =>
        (.ok p.isOn, p.map (inside.map Stop.row).get) := by
  have hGet : (inside.map Stop.row).get
      = fun i => (inside.get (i.cast (List.length_map Stop.row))).row := by
    funext i
    simp
  rw [hGet, Place.path_cast (List.length_map Stop.row) fun i => (inside.get i).row]
  exact h.travel_eq .beforeFirst ms

theorem readOn_eq (h : c.Cuts ix stops below inside above) (p : Place (Fin inside.length))
    {limit : Nat} (hLimit : inside.length < p.passed + limit) :
    (Index.readOn limit ix (c.standing inside p)).result.1
      = .ok ((inside.drop p.passed).map Stop.row) := by
  induction limit generalizing ix p with
  | zero =>
    have := p.passed_le
    omega
  | succ limit ih =>
    obtain ⟨ix', h', hMove⟩ := h.move_eq p .next
    have hNext : (Index.next ix (c.standing inside p)).result
        = (.ok (p.step .next).isOn, c.standing inside (p.step .next), ix') := hMove
    rw [Place.step_next, Place.enter] at hNext
    simp only [Index.readOn, Traced.result_bind, hNext]
    by_cases hMore : p.passed < inside.length
    · have hRest := ih h' (.on ⟨p.passed, hMore⟩) (by
        show inside.length < p.passed + 1 + limit
        omega)
      rw [List.drop_eq_getElem_cons hMore]
      simp only [dif_pos hMore, Place.isOn, Traced.result_bind, hRest]
      rfl
    · rw [List.drop_eq_nil_of_le (Nat.le_of_not_lt hMore)]
      simp only [dif_neg hMore, Place.isOn]
      rfl

theorem inside_eq_filter (h : c.Cuts ix stops below inside above) :
    inside = stops.filter fun s => c.holds ix s.key := by
  rw [h.eq, List.filter_append, List.filter_append,
    List.filter_eq_nil_iff.2 fun s hs => by simp [h.holds_below s hs],
    List.filter_eq_self.2 h.holds_inside,
    List.filter_eq_nil_iff.2 fun s hs => by simp [h.holds_above s hs], List.nil_append,
    List.append_nil]

end Cuts

end OrderedCursor

namespace OrderedIndex

variable {ix : OrderedIndex} {log : List Row} {stops : List Stop}

theorem Lists.length_toList (h : ix.Lists stops) : ix.tree.toList.length = stops.length := by
  have hWalk := h.traverses.walk_next (l := []) rfl
  rw [KeyTree.toList, KeyTree.ahead, KeyTree.first?, h.traverses.first, Option.join_some, hWalk]
  simp

/-- The stops of an index hold the rows of a ledger, in order and, where keys are equal, in the
order of the ledger. -/
structure Sorts (ix : OrderedIndex) (log : List Row) (stops : List Stop) : Prop where
  lists : ix.Lists stops
  row : ∀ s ∈ stops, s.row ∈ log ∧ ix.order.keyOf s.row == s.key
  perm : (stops.map Stop.row).Perm log
  filter_eq : ∀ key, ix.order.Full key →
    (stops.map Stop.row).filter (ix.order.keyOf · == key) = ix.order.withKey log key

/-- A list of positions and a list of rows that belong together. -/
theorem exists_stops {xs : List (Located Key)} {ys : List (Key × Row)}
    (h : xs.map Prod.snd = ys.map fun y => (y.1, y.2.id)) :
    ∃ stops : List Stop, stops.map Stop.located = xs ∧
      stops.map (fun s => (s.key, s.row)) = ys := by
  induction ys generalizing xs with
  | nil => exact ⟨[], (List.map_eq_nil_iff.1 h).symm, rfl⟩
  | cons y ys ih =>
    obtain ⟨⟨p, key, id⟩, xs, rfl, hHead, hTail⟩ := List.map_eq_cons_iff.1 h
    obtain ⟨stops, hLocated, hRows⟩ := ih hTail
    refine ⟨⟨p, y.1, y.2⟩ :: stops, List.cons_eq_cons.2 ⟨?_, hLocated⟩,
      List.cons_eq_cons.2 ⟨rfl, hRows⟩⟩
    exact congrArg (p, ·) hHead.symm

theorem Holds.exists_sorts (h : ix.Holds log) : ∃ stops, ix.Sorts log stops := by
  obtain ⟨m, hTree, hFiles⟩ := h.tree
  obtain ⟨xs, hTraverses, hPairs⟩ := hTree.exists_traverses
  obtain ⟨stops, hLocated, hRows⟩ :=
    exists_stops (hPairs.trans (hFiles.sorted_pairs hTree.ascending hTree.keys).symm)
  have hSnd : stops.map Stop.row = (ix.order.sorted m log).map Prod.snd := by
    rw [← hRows, List.map_map]
    rfl
  have hMem : ∀ s ∈ stops, (s.key, s.row) ∈ ix.order.sorted m log :=
    fun s hs => hRows ▸ List.mem_map_of_mem hs
  have hRow : ∀ s ∈ stops, s.row ∈ log ∧ ix.order.keyOf s.row == s.key :=
    fun s hs => (RowOrder.mem_sorted.1 (hMem s hs)).2
  have hLog : log.Nodup := List.Nodup.of_map _ h.store.nodup
  refine ⟨stops, ⟨hLocated ▸ hTraverses, fun s hs => ?_, ?_, fun s hs => ?_⟩, hRow, ?_,
    fun key hKey => ?_⟩
  · obtain ⟨⟨e, he, hKey⟩, -⟩ := RowOrder.mem_sorted.1 (hMem s hs)
    have hFull := hTree.keys e he
    rwa [hKey] at hFull
  · have hAscending := RowOrder.sorted_ascending log hTree.ascending
    rw [← hRows, List.pairwise_map] at hAscending
    exact hAscending
  · exact h.store.row?_of_mem (hRow s hs).1
  · rw [hSnd]
    exact hFiles.sorted_perm hTree.ascending hTree.keys hLog
  · rw [hSnd]
    exact hFiles.filter_sorted hTree.ascending hTree.keys hKey

/-- A stop is in range when its row is. -/
theorem Holds.holds_eq_inRange (h : ix.Holds log) {s : Stop} (hFull : ix.order.Full s.key)
    (hRow : s.row ∈ log) (hKey : ix.order.keyOf s.row == s.key) (c : OrderedCursor) :
    c.holds ix s.key = ix.order.inRange c.lower c.upper s.row := by
  have hSame : ∀ b : Bound, ix.order.compareKeyWith s.key b = ix.order.compareRows s.row b := by
    intro b
    rw [RowOrder.compareRows_eq_keyWith (h.covers hRow)]
    exact (RowOrder.compareKeyWith_congr (RowOrder.full_keyOf _ _) hFull
      ((RowOrder.keyOf_beq_iff hFull).1 hKey) b).symm
  have hLower : (!c.lower.any (ix.belowBound · s.key))
      = c.lower.all fun b => ix.order.compareRows s.row b != .lt := by
    cases c.lower with
    | none => rfl
    | some b => simp only [Option.any_some, Option.all_some, belowBound, hSame, bne]
  have hUpper : (!c.upper.any (ix.aboveBound · s.key))
      = c.upper.all fun b => ix.order.compareRows s.row b != .gt := by
    cases c.upper with
    | none => rfl
    | some b => simp only [Option.any_some, Option.all_some, aboveBound, hSame, bne]
  rw [OrderedCursor.holds, RowOrder.inRange, hLower, hUpper, Bool.and_comm]

theorem Sorts.arranges (hs : ix.Sorts log stops) (h : ix.Holds log) (p : Row → Bool) :
    ix.order.Arranges ((stops.map Stop.row).filter p) (log.filter p) := by
  have hRows : ∀ a ∈ log, ∀ b ∈ log, ix.order.compareRows a b
      = ix.order.compareKeys (ix.order.keyOf a) (ix.order.keyOf b) :=
    fun a ha b hb => RowOrder.compareRows_eq_keys (h.covers ha) (h.covers hb)
  have hKeyOf : ∀ s ∈ stops, ix.order.compareKeys (ix.order.keyOf s.row) s.key = .eq :=
    fun s hMem => (RowOrder.keyOf_beq_iff (hs.lists.full s hMem)).1 (hs.row s hMem).2
  refine ⟨hs.perm.filter p, ?_, fun r hr => ?_⟩
  · have hOrder : (stops.map Stop.row).Pairwise fun a b => (ix.order.compareRows a b).isLE := by
      refine List.pairwise_map.2 (hs.lists.ascending.imp_of_mem fun {s u} hMem hMem' hLe => ?_)
      rw [hRows _ (hs.row s hMem).1 _ (hs.row u hMem').1, Std.TransCmp.congr_left (hKeyOf s hMem),
        Std.TransCmp.congr_right (hKeyOf u hMem')]
      exact hLe
    exact hOrder.filter p
  · have hr := hs.perm.subset (List.mem_filter.1 hr).1
    have hSame : ∀ q ∈ log, (ix.order.compareRows r q == .eq)
        = (ix.order.keyOf q == ix.order.keyOf r) := by
      intro q hq
      rw [Bool.eq_iff_iff, RowOrder.keyOf_beq_iff (RowOrder.full_keyOf _ r), beq_iff_eq,
        hRows r hr q hq, Std.OrientedCmp.eq_comm]
    have hAll : (stops.map Stop.row).filter (ix.order.compareRows r · == .eq)
        = log.filter (ix.order.compareRows r · == .eq) :=
      calc (stops.map Stop.row).filter (ix.order.compareRows r · == .eq)
        _ = (stops.map Stop.row).filter (ix.order.keyOf · == ix.order.keyOf r) :=
          List.filter_congr fun q hq => hSame q (hs.perm.subset hq)
        _ = log.filter (ix.order.keyOf · == ix.order.keyOf r) :=
          hs.filter_eq _ (RowOrder.full_keyOf _ r)
        _ = log.filter (ix.order.compareRows r · == .eq) :=
          List.filter_congr fun q hq => (hSame q hq).symm
    rw [List.filter_comm, hAll, List.filter_comm]

/-- A scan cuts the stops of the index, and those in range have the rows of the ledger in range. -/
theorem Holds.exists_cuts (h : ix.Holds log) (lower upper : Option Bound) :
    ∃ stops below inside above,
      ix.order.Arranges (inside.map Stop.row) (log.filter (ix.order.inRange lower upper)) ∧
      ({ lower, upper } : OrderedCursor).Cuts { ix with tree := ix.tree.recordScan } stops below
        inside above := by
  obtain ⟨stops, hs⟩ := h.exists_sorts
  have hLists : ({ ix with tree := ix.tree.recordScan } : OrderedIndex).Lists stops :=
    ⟨hs.lists.traverses, hs.lists.full, hs.lists.ascending, hs.lists.stored⟩
  obtain ⟨below, inside, above, hCuts⟩ := OrderedCursor.exists_cuts hLists { lower, upper }
  refine ⟨stops, below, inside, above, ?_, hCuts⟩
  have hInside : inside.map Stop.row
      = (stops.map Stop.row).filter (ix.order.inRange lower upper) := by
    rw [hCuts.inside_eq_filter, List.filter_map]
    refine congrArg _ (List.filter_congr fun s hMem => ?_)
    exact h.holds_eq_inRange (hs.lists.full s hMem) (hs.row s hMem).1 (hs.row s hMem).2
      { lower, upper }
  rw [hInside]
  exact hs.arranges h _

theorem rows_eq {lower upper : Option Bound} {below inside above : List Stop}
    (h : ({ lower, upper } : OrderedCursor).Cuts { ix with tree := ix.tree.recordScan } stops below
      inside above) : (Index.rows ix lower upper).result.1 = .ok (inside.map Stop.row) := by
  have hLength : inside.length ≤ stops.length := by
    rw [h.eq, List.length_append, List.length_append]
    omega
  rw [← h.lists.length_toList] at hLength
  have hRead : (Index.readAll { ix with tree := ix.tree.recordScan }
      (({ lower, upper } : OrderedCursor).standing inside .beforeFirst)).result.1
        = .ok (inside.map Stop.row) := by
    refine h.readOn_eq .beforeFirst ?_
    rw [Place.passed, Nat.zero_add]
    exact Nat.lt_succ_of_le hLength
  exact hRead

/-- A scan gives the rows of the ledger that are in range by a stable sort. -/
theorem Holds.rows_eq_mergeSort (h : ix.Holds log) (lower upper : Option Bound) :
    (Index.rows ix lower upper).result.1
      = .ok ((log.filter (ix.order.inRange lower upper)).mergeSort
        fun a b => (ix.order.compareRows a b).isLE) := by
  obtain ⟨stops, below, inside, above, hArranges, hCuts⟩ := h.exists_cuts lower upper
  rw [rows_eq hCuts, hArranges.eq_mergeSort fun r hr => h.covers (List.mem_filter.1 hr).1]

/-! ### Histories -/

section

variable {name index : String} {steps : List Declaration} {t : Table} {d : IndexDef}

/-- After any calls, a scan gives the rows of the ledger that are in range, sorted, and a key is
found with the rows that have it. -/
theorem rows_of_history (hTable : Table.declare name steps = .ok t)
    (hIndex : t.index? index = some d) (hType : d.type = .btree) (settings : Settings) :
    ∃ ix o, create t index settings = .ok ix ∧ RowOrder.ofIndex t d settings.nulls = .ok o ∧
      ∀ ops, (((Filing.mk t o d.unique).ledger ops).map Row.id).Nodup ∧
        (∀ lower upper, ∃ rows,
          (Index.rows (StoredIndex.after ix ops) lower upper).result.1 = .ok rows ∧
          o.Arranges rows (((Filing.mk t o d.unique).ledger ops).filter (o.inRange lower upper))) ∧
        ∀ key : Key, key.length = d.columns.length → (StoredIndex.after ix ops).get key
          = ((Filing.mk t o d.unique).ledger ops).filter (o.keyOf · == key) := by
  obtain ⟨ix, o, hCreate, hOrder, hLength, hFiling, -, hEmpty⟩ :=
    exists_create hTable hIndex hType settings
  refine ⟨ix, o, hCreate, hOrder, fun ops => ?_⟩
  obtain ⟨hHolds, hSame⟩ := hEmpty.after ops
  rw [hFiling] at hHolds hSame
  obtain rfl : (StoredIndex.after ix ops).order = o := congrArg Filing.order hSame
  refine ⟨hHolds.store.nodup, fun lower upper => ?_, fun key hKey => ?_⟩
  · obtain ⟨stops, below, inside, above, hArranges, hCuts⟩ := hHolds.exists_cuts lower upper
    exact ⟨_, rows_eq hCuts, hArranges⟩
  · exact hHolds.get_eq (hKey.trans hLength.symm)

/-- One number in two types, of which the one that came first goes and comes back. -/
theorem rows_of_returned_row : ∃ t ix rows,
    Table.declare "T" [.column "K" .int64, .index "byK" ["K"] false] = .ok t ∧
    create t "byK" {} = .ok ix ∧
    (Index.rows (StoredIndex.after ix [.insert ⟨1, [.int64 7]⟩, .insert ⟨2, [.int32 7]⟩, .erase 1,
      .insert ⟨1, [.int64 7]⟩]) (some ⟨[some (.int32 7)]⟩) none).result.1 = .ok rows ∧
    rows.Perm [⟨2, [.int32 7]⟩, ⟨1, [.int64 7]⟩] ∧
    (StoredIndex.after ix [.insert ⟨1, [.int64 7]⟩, .insert ⟨2, [.int32 7]⟩, .erase 1,
      .insert ⟨1, [.int64 7]⟩]).get [.int64 7] = [⟨2, [.int32 7]⟩, ⟨1, [.int64 7]⟩] := by
  obtain ⟨ix, o, hCreate, hOrder, hHistory⟩ := @rows_of_history "T" "byK"
    [.column "K" .int64, .index "byK" ["K"] false] _ _ rfl rfl rfl {}
  obtain rfl := Except.ok.inj hOrder
  obtain ⟨-, hRows, hGet⟩ := hHistory [.insert ⟨1, [.int64 7]⟩, .insert ⟨2, [.int32 7]⟩, .erase 1,
    .insert ⟨1, [.int64 7]⟩]
  obtain ⟨rows, hRows, hArranges⟩ := hRows (some ⟨[some (.int32 7)]⟩) none
  exact ⟨_, ix, rows, rfl, hCreate, hRows, hArranges.perm, hGet [.int64 7] rfl⟩

/-- After any calls, a scan gives the rows of the ledger that are in range by a stable sort. -/
theorem sorted_of_history (hTable : Table.declare name steps = .ok t)
    (hIndex : t.index? index = some d) (hType : d.type = .btree) (settings : Settings) :
    ∃ ix o, create t index settings = .ok ix ∧ RowOrder.ofIndex t d settings.nulls = .ok o ∧
      ∀ ops lower upper, (Index.rows (StoredIndex.after ix ops) lower upper).result.1
        = .ok ((((Filing.mk t o d.unique).ledger ops).filter (o.inRange lower upper)).mergeSort
          fun a b => (o.compareRows a b).isLE) := by
  obtain ⟨ix, o, hCreate, hOrder, -, hFiling, -, hEmpty⟩ :=
    exists_create hTable hIndex hType settings
  refine ⟨ix, o, hCreate, hOrder, fun ops lower upper => ?_⟩
  obtain ⟨hHolds, hSame⟩ := hEmpty.after ops
  rw [hFiling] at hHolds hSame
  obtain rfl : (StoredIndex.after ix ops).order = o := congrArg Filing.order hSame
  exact hHolds.rows_eq_mergeSort lower upper

/-- After any calls, a cursor is a place in the list of the rows that a scan gives. -/
theorem zipper_of_history (hTable : Table.declare name steps = .ok t)
    (hIndex : t.index? index = some d) (hType : d.type = .btree) (settings : Settings) :
    ∃ ix, create t index settings = .ok ix ∧ ∀ ops lower upper, ∃ rows c ix',
      (Index.rows (StoredIndex.after ix ops) lower upper).result.1 = .ok rows ∧
      (Index.scan (StoredIndex.after ix ops) lower upper).result = (.ok c, ix') ∧
      Index.place (ι := OrderedIndex) c = .beforeFirst ∧
      ∀ moves, (Index.travel ix' c moves).result.1
        = ((.beforeFirst : Place (Fin rows.length)).path moves).map fun p =>
          (.ok p.isOn, p.map rows.get) := by
  obtain ⟨ix, o, hCreate, -, -, -, -, hEmpty⟩ := exists_create hTable hIndex hType settings
  refine ⟨ix, hCreate, fun ops lower upper => ?_⟩
  obtain ⟨stops, below, inside, above, -, hCuts⟩ := (hEmpty.after ops).1.exists_cuts lower upper
  exact ⟨_, _, _, rows_eq hCuts, rfl, rfl, hCuts.travel_rows⟩

/-- Calls after which the leaf of the keys 3 and 4, the second of three, is empty. -/
def thinned : List Operation :=
  [.insert ⟨1, [.int64 1]⟩, .insert ⟨2, [.int64 2]⟩, .insert ⟨3, [.int32 2]⟩,
    .insert ⟨4, [.int64 3]⟩, .insert ⟨5, [.int64 4]⟩, .insert ⟨6, [.int64 5]⟩,
    .insert ⟨7, [.int32 5]⟩, .insert ⟨8, [.int64 6]⟩, .erase 4, .erase 5]

/-- Two rows of one key and two of another, an empty leaf apart: a cursor crosses the leaf in both
directions, and comes back from either end. -/
theorem zipper_turned_around : ∃ t ix c ix',
    Table.declare "T" [.column "K" .int64, .index "byK" ["K"] false] = .ok t ∧
    create t "byK" { fanout := 4 } = .ok ix ∧
    (Index.scan (StoredIndex.after ix thinned) (some ⟨[some (.int64 2)]⟩)
      (some ⟨[some (.float64 ⟨0x4014000000000000⟩)]⟩)).result = (.ok c, ix') ∧
    (Index.travel ix' c [.next, .next, .next, .previous, .previous, .previous, .previous, .next,
      .next, .next, .next, .next, .next, .previous, .previous]).result.1
      = [(.ok true, .on ⟨2, [.int64 2]⟩), (.ok true, .on ⟨3, [.int32 2]⟩),
        (.ok true, .on ⟨6, [.int64 5]⟩), (.ok true, .on ⟨3, [.int32 2]⟩),
        (.ok true, .on ⟨2, [.int64 2]⟩), (.ok false, .beforeFirst), (.ok false, .beforeFirst),
        (.ok true, .on ⟨2, [.int64 2]⟩), (.ok true, .on ⟨3, [.int32 2]⟩),
        (.ok true, .on ⟨6, [.int64 5]⟩), (.ok true, .on ⟨7, [.int32 5]⟩), (.ok false, .exhausted),
        (.ok false, .exhausted), (.ok true, .on ⟨7, [.int32 5]⟩),
        (.ok true, .on ⟨6, [.int64 5]⟩)] := by
  obtain ⟨ix, hCreate, hHistory⟩ := @zipper_of_history "T" "byK"
    [.column "K" .int64, .index "byK" ["K"] false] _ _ rfl rfl rfl { fanout := 4 }
  obtain ⟨rows, c, ix', hRows, hScan, -, hTravel⟩ := hHistory thinned (some ⟨[some (.int64 2)]⟩)
    (some ⟨[some (.float64 ⟨0x4014000000000000⟩)]⟩)
  obtain ⟨ix₀, o, hCreate₀, hOrder, hSorted⟩ := @sorted_of_history "T" "byK"
    [.column "K" .int64, .index "byK" ["K"] false] _ _ rfl rfl rfl { fanout := 4 }
  obtain rfl := Except.ok.inj (hCreate.symm.trans hCreate₀)
  obtain rfl : ⟨[(0, .ascending)], .low⟩ = o := Except.ok.inj hOrder
  obtain rfl : [⟨2, [.int64 2]⟩, ⟨3, [.int32 2]⟩, ⟨6, [.int64 5]⟩, ⟨7, [.int32 5]⟩] = rows := by
    rw [← Except.ok.inj ((hSorted thinned ..).symm.trans hRows),
      List.mergeSort_of_pairwise (by decide)]
    rfl
  refine ⟨_, ix, c, ix', rfl, hCreate, hScan, ?_⟩
  rw [hTravel]
  rfl

end

end OrderedIndex

end IndexScan

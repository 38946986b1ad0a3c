import IndexScan.Proofs.Index.Ordered

/-!
# The cursor of an ordered index is a list zipper

The tree of an ordered index is a list of stops, in the order of their keys.  The bounds of a scan
cut it in three: the stops below the lower bound, those in range, and the rest (`Cuts`).  Every way
into the list arrives at the right end of the middle part or outside of it, so a cursor is a place
in the middle part and each call moves it by one (`Cuts.next_eq`).  When the bounds cross, the
middle part is empty, and then every way in arrives outside.
-/

namespace IndexScan

/-! ### Places in a list -/

namespace Place

variable {α : Type} {n : Nat}

def isOn : Place α → Bool
  | on _ => true
  | _ => false

/-- The place of the member that comes after the first `k`. -/
def enter (n k : Nat) : Place (Fin n) := if h : k < n then .on ⟨k, h⟩ else .exhausted

/-- The place of the last of the first `k` members. -/
def leave (n : Nat) : Nat → Place (Fin n)
  | 0 => .beforeFirst
  | k + 1 => if h : k < n then .on ⟨k, h⟩ else .beforeFirst

/-- A move from place to place in a list. -/
def step : Move → Place (Fin n) → Place (Fin n)
  | .next, .beforeFirst => enter n 0
  | .next, .on i => enter n (i + 1)
  | .next, .exhausted => .exhausted
  | .previous, .beforeFirst => .beforeFirst
  | .previous, .on i => leave n i
  | .previous, .exhausted => leave n n

/-- The places that moves lead to. -/
def path (p : Place (Fin n)) : List Move → List (Place (Fin n))
  | [] => []
  | m :: ms => p.step m :: (p.step m).path ms

/-- The number of members that are not ahead of a place. -/
def passed : Place (Fin n) → Nat
  | beforeFirst => 0
  | on i => i + 1
  | exhausted => n

theorem passed_le (p : Place (Fin n)) : p.passed ≤ n := by
  cases p with
  | beforeFirst => exact Nat.zero_le n
  | on i => exact i.isLt
  | exhausted => exact Nat.le_refl n

theorem step_next (p : Place (Fin n)) : p.step .next = enter n p.passed := by
  cases p with
  | exhausted => rw [passed, enter, dif_neg (Nat.lt_irrefl n)]; rfl
  | _ => rfl

end Place

/-! ### Bounds -/

namespace RowOrder

/-- The keys below a lower bound come first. -/
theorem downward_below (o : RowOrder) (lower : Option Bound) :
    Downward o.compareKeys o.Full fun key => lower.any (o.compareKeyWith key · == .lt) := by
  intro k l hk hl hLe hBelow
  cases lower with
  | none => exact hBelow
  | some b =>
    simp only [Option.any_some, beq_iff_eq] at hBelow ⊢
    exact compareKeyWith_lt_of_isLE hk hl hLe b hBelow

/-- The keys above an upper bound come last. -/
theorem downward_not_above (o : RowOrder) (upper : Option Bound) :
    Downward o.compareKeys o.Full fun key => !upper.any (o.compareKeyWith key · == .gt) := by
  intro k l hk hl hLe hNotAbove
  cases upper with
  | none => exact hNotAbove
  | some b =>
    simp only [Option.any_some, Bool.not_eq_true', beq_eq_false_iff_ne, ne_eq] at hNotAbove ⊢
    exact fun hAbove => hNotAbove (compareKeyWith_gt_of_isLE hk hl hLe b hAbove)

end RowOrder

/-! ### Stops -/

/-- A place in the tree of an ordered index, with the key and the row found there. -/
structure Stop where
  position : Position
  key : Key
  row : Row

def Stop.located (s : Stop) : Located Key := (s.position, s.key, s.row.id)

namespace OrderedIndex

/-- The tree of the index is a list of stops in order, whose rows are stored. -/
structure Lists (ix : OrderedIndex) (stops : List Stop) : Prop where
  traverses : ix.tree.arena.Traverses ix.order.compareKeys ix.order.Full (stops.map Stop.located)
  full : ∀ s ∈ stops, ix.order.Full s.key
  ascending : stops.Pairwise fun s u => (ix.order.compareKeys s.key u.key).isLE
  stored : ∀ s ∈ stops, ix.store.row? s.row.id = some s.row

variable {ix : OrderedIndex} {stops l r : List Stop} {s : Stop}

theorem map_located_head? (stops : List Stop) :
    (stops.map Stop.located).head?.map Prod.fst = stops.head?.map Stop.position := by
  rw [List.head?_map, Option.map_map]
  rfl

theorem map_located_getLast? (stops : List Stop) :
    (stops.map Stop.located).getLast?.map Prod.fst = stops.getLast?.map Stop.position := by
  rw [List.getLast?_map, Option.map_map]
  rfl

theorem Lists.recordRow (h : ix.Lists stops) : ix.recordRow.Lists stops :=
  ⟨h.traverses, h.full, h.ascending, h.stored⟩

theorem Lists.first?_eq (h : ix.Lists stops) :
    ix.tree.first? = stops.head?.map Stop.position := by
  rw [KeyTree.first?, h.traverses.first, map_located_head?]
  rfl

theorem Lists.last?_eq (h : ix.Lists stops) :
    ix.tree.last? = stops.getLast?.map Stop.position := by
  rw [KeyTree.last?, h.traverses.last, map_located_getLast?]
  rfl

theorem Lists.seek?_eq (h : ix.Lists stops) {below : Key → Bool}
    (hBelow : Downward ix.order.compareKeys ix.order.Full below) :
    ix.tree.seek? below = (stops.dropWhile (below ·.key)).head?.map Stop.position := by
  rw [KeyTree.seek?, h.traverses.seek below hBelow, List.dropWhile_map, map_located_head?]
  rfl

theorem Lists.next?_eq (h : ix.Lists stops) (hStops : stops = l ++ s :: r) :
    ix.tree.next? s.position = r.head?.map Stop.position := by
  have hNext := h.traverses.next (l.map Stop.located) s.located (r.map Stop.located)
    (by simp [hStops])
  rw [map_located_head?] at hNext
  rw [KeyTree.next?, show s.position = s.located.1 from rfl, hNext]
  rfl

theorem Lists.previous?_eq (h : ix.Lists stops) (hStops : stops = l ++ s :: r) :
    ix.tree.previous? s.position = l.getLast?.map Stop.position := by
  have hPrevious := h.traverses.previous (l.map Stop.located) s.located (r.map Stop.located)
    (by simp [hStops])
  rw [map_located_getLast?] at hPrevious
  rw [KeyTree.previous?, show s.position = s.located.1 from rfl, hPrevious]
  rfl

theorem Lists.pair?_eq (h : ix.Lists stops) (hs : s ∈ stops) :
    ix.tree.pair? s.position = some (s.key, s.row.id) := by
  obtain ⟨l, r, rfl⟩ := List.append_of_mem hs
  exact h.traverses.pair (l.map Stop.located) s.located (r.map Stop.located) (by simp)

theorem downward_belowBound (ix : OrderedIndex) (b : Option Bound) :
    Downward ix.order.compareKeys ix.order.Full fun key => b.any (ix.belowBound · key) :=
  ix.order.downward_below b

theorem downward_not_aboveBound (ix : OrderedIndex) (b : Option Bound) :
    Downward ix.order.compareKeys ix.order.Full fun key => !b.any (ix.aboveBound · key) :=
  ix.order.downward_not_above b

end OrderedIndex

/-! ### Arriving -/

namespace OrderedCursor

variable {c : OrderedCursor} {ix : OrderedIndex} {stops : List Stop}

/-- The target of a move is a stop in range, or there is none in range. -/
def Lands (c : OrderedCursor) (ix : OrderedIndex) (target : Option Position) (s? : Option Stop) :
    Prop :=
  (target.bind fun p => (c.inRange? ix p).map (p, ·)) = s?.map fun s => (s.position, s.row.id)

theorem inRange?_eq (h : ix.Lists stops) {s : Stop} (hs : s ∈ stops) :
    c.inRange? ix s.position = if c.holds ix s.key then some s.row.id else none := by
  rw [inRange?, h.pair?_eq hs]
  rfl

theorem lands_of_holds (h : ix.Lists stops) {s : Stop} (hs : s ∈ stops)
    (hHolds : c.holds ix s.key = true) : c.Lands ix (some s.position) (some s) := by
  rw [Lands, Option.bind_some, inRange?_eq h hs, if_pos hHolds]
  rfl

theorem lands_of_not_holds (h : ix.Lists stops) {s : Stop} (hs : s ∈ stops)
    (hHolds : c.holds ix s.key = false) : c.Lands ix (some s.position) none := by
  rw [Lands, Option.bind_some, inRange?_eq h hs, if_neg (by simp [hHolds])]
  rfl

theorem lands_head? (h : ix.Lists stops) {v w z : List Stop} (hStops : stops = v ++ (w ++ z))
    (hInside : ∀ s ∈ w, c.holds ix s.key = true) (hAfter : ∀ s ∈ z, c.holds ix s.key = false) :
    c.Lands ix ((w ++ z).head?.map Stop.position) w.head? := by
  cases w with
  | cons s w => exact lands_of_holds h (by simp [hStops]) (hInside s (by simp))
  | nil =>
    cases z with
    | nil => rfl
    | cons s z => exact lands_of_not_holds h (by simp [hStops]) (hAfter s (by simp))

theorem lands_getLast? (h : ix.Lists stops) {v w z : List Stop} (hStops : stops = (v ++ w) ++ z)
    (hBefore : ∀ s ∈ v, c.holds ix s.key = false) (hInside : ∀ s ∈ w, c.holds ix s.key = true) :
    c.Lands ix ((v ++ w).getLast?.map Stop.position) w.getLast? := by
  rcases List.eq_nil_or_concat' w with rfl | ⟨w, s, rfl⟩
  · rcases List.eq_nil_or_concat' v with rfl | ⟨v, s, rfl⟩
    · rfl
    · rw [List.append_nil, List.getLast?_concat]
      exact lands_of_not_holds h (by simp [hStops]) (hBefore s (by simp))
  · rw [← List.append_assoc, List.getLast?_concat, List.getLast?_concat]
    exact lands_of_holds h (by simp [hStops]) (hInside s (by simp))

/-- The stops of an index, cut where the bounds of a scan begin and cease to hold. -/
structure Cuts (c : OrderedCursor) (ix : OrderedIndex) (stops below inside above : List Stop) :
    Prop where
  lists : ix.Lists stops
  eq : stops = below ++ (inside ++ above)
  holds_below : ∀ s ∈ below, c.holds ix s.key = false
  holds_inside : ∀ s ∈ inside, c.holds ix s.key = true
  holds_above : ∀ s ∈ above, c.holds ix s.key = false
  first : c.firstInRange ix = (inside ++ above).head?.map Stop.position
  last : ∃ v z, stops = (v ++ inside) ++ z ∧ (∀ s ∈ v, c.holds ix s.key = false) ∧
    c.lastInRange ix = (v ++ inside).getLast?.map Stop.position

theorem firstInRange_eq (h : ix.Lists stops) {l r : List Stop} (hStops : stops = l ++ r)
    (hl : ∀ s ∈ l, c.lower.any (ix.belowBound · s.key) = true)
    (hr : ∀ s ∈ r, c.lower.any (ix.belowBound · s.key) = false) :
    c.firstInRange ix = r.head?.map Stop.position := by
  rw [firstInRange]
  cases hLower : c.lower with
  | none =>
    have hNil : l = [] :=
      List.eq_nil_iff_forall_not_mem.2 fun s hs => by simpa [hLower] using hl s hs
    simp only [h.first?_eq, hStops, hNil, List.nil_append]
  | some b =>
    rw [hLower] at hl hr
    have hSeek := h.seek?_eq (ix.downward_belowBound (some b))
    rw [hStops, dropWhile_append_eq hl hr] at hSeek
    exact hSeek

theorem lastInRange_eq (h : ix.Lists stops) {l r : List Stop} (hStops : stops = l ++ r)
    (hl : ∀ s ∈ l, (!c.upper.any (ix.aboveBound · s.key)) = true)
    (hr : ∀ s ∈ r, (!c.upper.any (ix.aboveBound · s.key)) = false) :
    c.lastInRange ix = l.getLast?.map Stop.position := by
  rw [lastInRange]
  cases hUpper : c.upper with
  | none =>
    have hNil : r = [] :=
      List.eq_nil_iff_forall_not_mem.2 fun s hs => by simpa [hUpper] using hr s hs
    simp only [h.last?_eq, hStops, hNil, List.append_nil]
  | some b =>
    rw [hUpper] at hl hr
    have hSeek := h.seek?_eq (ix.downward_not_aboveBound (some b))
    rw [hStops, dropWhile_append_eq hl hr] at hSeek
    simp only [Option.any_some] at hSeek
    simp only [hSeek]
    cases r with
    | nil =>
      rw [List.append_nil] at hStops
      rw [← hStops]
      exact h.last?_eq
    | cons s r => exact h.previous?_eq hStops

theorem holds_eq_false_of_below {key : Key} (h : c.lower.any (ix.belowBound · key) = true) :
    c.holds ix key = false := by
  rw [holds, h, Bool.not_true, Bool.and_false]

theorem holds_eq_false_of_above {key : Key} (h : (!c.upper.any (ix.aboveBound · key)) = false) :
    c.holds ix key = false := by
  rw [holds, h, Bool.false_and]

/-- The way in from the end arrives at the last stop in range, or out of range. -/
theorem exists_last (h : ix.Lists stops) {below inside above : List Stop}
    (hStops : stops = below ++ (inside ++ above))
    (hBelow : ∀ s ∈ below, c.holds ix s.key = false)
    (hInside : ∀ s ∈ inside, (!c.upper.any (ix.aboveBound · s.key)) = true)
    (hAbove : ∀ s ∈ above, (!c.upper.any (ix.aboveBound · s.key)) = false) :
    ∃ v z, stops = (v ++ inside) ++ z ∧ (∀ s ∈ v, c.holds ix s.key = false) ∧
      c.lastInRange ix = (v ++ inside).getLast?.map Stop.position := by
  have hUpper := ix.downward_not_aboveBound c.upper
  cases inside with
  | nil =>
    -- the bounds may have crossed, but then nothing is in range at all
    obtain ⟨l, r, hSpan, hl, hr⟩ := hUpper.exists_span h.ascending h.full
    refine ⟨l, r, by rw [List.append_nil]; exact hSpan, fun s hs => ?_, ?_⟩
    · have hMem : s ∈ below ++ above := hStops ▸ hSpan ▸ List.mem_append_left r hs
      rcases List.mem_append.1 hMem with hs | hs
      · exact hBelow s hs
      · exact holds_eq_false_of_above (hAbove s hs)
    · rw [List.append_nil]
      exact lastInRange_eq h hSpan hl hr
  | cons s inside =>
    rw [← List.append_assoc] at hStops
    refine ⟨below, above, hStops, hBelow, lastInRange_eq h hStops (fun u hu => ?_) hAbove⟩
    rcases List.mem_append.1 hu with hu | hu
    · have hOrder := h.ascending
      rw [hStops, List.append_assoc, List.pairwise_append] at hOrder
      exact hUpper u.key s.key (h.full u (by simp [hStops, hu])) (h.full s (by simp [hStops]))
        (hOrder.2.2 u hu s (by simp)) (hInside s (by simp))
    · exact hInside u hu

theorem exists_cuts (h : ix.Lists stops) (c : OrderedCursor) :
    ∃ below inside above, c.Cuts ix stops below inside above := by
  obtain ⟨below, rest, hStops, hBelow, hRest⟩ :=
    (ix.downward_belowBound c.lower).exists_span h.ascending h.full
  have hOrder := h.ascending
  rw [hStops, List.pairwise_append] at hOrder
  obtain ⟨inside, above, rfl, hInside, hAbove⟩ :=
    (ix.downward_not_aboveBound c.upper).exists_span hOrder.2.1
      fun s hs => h.full s (by simp only [hStops, List.mem_append_right _ hs])
  have hOut : ∀ s ∈ below, c.holds ix s.key = false :=
    fun s hs => holds_eq_false_of_below (hBelow s hs)
  refine ⟨below, inside, above, h, hStops, hOut, fun s hs => ?_,
    fun s hs => holds_eq_false_of_above (hAbove s hs), firstInRange_eq h hStops hBelow hRest,
    exists_last h hStops hOut hInside hAbove⟩
  rw [holds, hInside s hs, hRest s (List.mem_append_left _ hs)]
  rfl

/-! ### Moving -/

/-- The cursor at a place among the stops in range. -/
def standing (c : OrderedCursor) (inside : List Stop) (p : Place (Fin inside.length)) :
    OrderedCursor :=
  { c with place := p.map fun i => ((inside.get i).position, (inside.get i).row) }

namespace Cuts

variable {below inside above : List Stop} {target : Option Position}

theorem land_none (hLands : c.Lands ix target none) (otherwise : Place (Position × Row)) :
    c.land ix target otherwise = (.ok false, { c with place := otherwise }) := by
  rw [land, hLands]
  rfl

theorem inside_mem (h : c.Cuts ix stops below inside above) {s : Stop} (hs : s ∈ inside) :
    s ∈ stops := by
  rw [h.eq]
  exact List.mem_append_right _ (List.mem_append_left _ hs)

theorem land_some (h : c.Cuts ix stops below inside above) {s : Stop} (hs : s ∈ inside)
    (hLands : c.Lands ix target (some s)) (otherwise : Place (Position × Row)) :
    c.land ix target otherwise = (.ok true, { c with place := .on (s.position, s.row) }) := by
  rw [land, hLands]
  simp only [Option.map_some, RowStore.require, h.lists.stored s (h.inside_mem hs)]

theorem land_enter (h : c.Cuts ix stops below inside above) {k : Nat}
    (hLands : c.Lands ix target (inside.drop k).head?) :
    c.land ix target .exhausted
      = (.ok (Place.enter inside.length k).isOn, c.standing inside (.enter inside.length k)) := by
  rw [List.head?_drop] at hLands
  rw [Place.enter]
  by_cases hk : k < inside.length
  · rw [List.getElem?_eq_getElem hk] at hLands
    rw [dif_pos hk]
    exact h.land_some (List.getElem_mem hk) hLands _
  · rw [List.getElem?_eq_none (Nat.le_of_not_lt hk)] at hLands
    rw [dif_neg hk]
    exact land_none hLands _

theorem land_leave (h : c.Cuts ix stops below inside above) {k : Nat} (hk : k ≤ inside.length)
    (hLands : c.Lands ix target (inside.take k).getLast?) :
    c.land ix target .beforeFirst
      = (.ok (Place.leave inside.length k).isOn, c.standing inside (.leave inside.length k)) := by
  cases k with
  | zero => exact land_none hLands _
  | succ k =>
    rw [List.take_succ_eq_append_getElem hk, List.getLast?_concat] at hLands
    rw [Place.leave, dif_pos (Nat.lt_of_succ_le hk)]
    exact h.land_some (List.getElem_mem hk) hLands _

/-- Where the cursor stands does not matter to where it can go. -/
theorem standing (h : c.Cuts ix stops below inside above) (p : Place (Fin inside.length)) :
    (c.standing inside p).Cuts ix stops below inside above :=
  ⟨h.lists, h.eq, h.holds_below, h.holds_inside, h.holds_above, h.first, h.last⟩

theorem eq_around (h : c.Cuts ix stops below inside above) (i : Fin inside.length) :
    stops = (below ++ inside.take i) ++ inside.get i :: (inside.drop (i + 1) ++ above) := by
  have hInside : inside = inside.take i ++ inside.get i :: inside.drop (i + 1) := by
    rw [List.get_eq_getElem, List.getElem_cons_drop, List.take_append_drop]
  calc stops = below ++ (inside ++ above) := h.eq
    _ = below ++ ((inside.take i ++ inside.get i :: inside.drop (i + 1)) ++ above) := by
      rw [← hInside]
    _ = _ := by simp only [List.append_assoc, List.cons_append]

/-- Each call of the cursor is one move in the list of the stops in range. -/
theorem next_eq (h : c.Cuts ix stops below inside above) (p : Place (Fin inside.length)) :
    (c.standing inside p).next ix
      = (.ok (p.step .next).isOn, c.standing inside (p.step .next)) := by
  have hHere := h.standing p
  cases p with
  | beforeFirst =>
    have hLands := lands_head? hHere.lists hHere.eq hHere.holds_inside hHere.holds_above
    rw [← hHere.first] at hLands
    exact hHere.land_enter (k := 0) hLands
  | on i =>
    have hAround := h.eq_around i
    have hAhead : stops = (below ++ inside.take i ++ [inside.get i]) ++
        (inside.drop (i + 1) ++ above) := by
      rw [hAround, List.append_assoc _ [inside.get i], List.singleton_append]
    have hLands := lands_head? hHere.lists hAhead
      (fun s hs => hHere.holds_inside s (List.mem_of_mem_drop hs)) hHere.holds_above
    rw [← h.lists.next?_eq hAround] at hLands
    exact hHere.land_enter hLands
  | exhausted => rfl

theorem previous_eq (h : c.Cuts ix stops below inside above) (p : Place (Fin inside.length)) :
    (c.standing inside p).previous ix
      = (.ok (p.step .previous).isOn, c.standing inside (p.step .previous)) := by
  have hHere := h.standing p
  cases p with
  | beforeFirst => rfl
  | on i =>
    have hAround := h.eq_around i
    have hLands := lands_getLast? hHere.lists hAround hHere.holds_below
      (fun s hs => hHere.holds_inside s (List.mem_of_mem_take hs))
    rw [← h.lists.previous?_eq hAround] at hLands
    exact hHere.land_leave (Nat.le_of_lt i.isLt) hLands
  | exhausted =>
    obtain ⟨v, z, hStops, hOut, hLast⟩ := hHere.last
    have hLands := lands_getLast? hHere.lists hStops hOut hHere.holds_inside
    rw [← hLast, ← List.take_length (l := inside)] at hLands
    exact hHere.land_leave (Nat.le_refl _) hLands

end Cuts

end OrderedCursor

end IndexScan

import IndexScan.Proofs.KeyTree.Listing

/-!
# Traversing an arena

The three ways into the list of an arena are descents: to the first leaf, to the last one, and to
the leaf where the keys stop being below something.  Together with the moves they make the arena
a list that can be entered at either end, or at any cut of its order, and walked in both
directions.
-/

namespace IndexScan

variable {κ : Type} {cmp : κ → κ → Ordering} {P : κ → Prop}

/-- A question that is answered with yes up to some point of the order and with no after it, as
far as keys with a property are concerned. -/
def Downward (cmp : κ → κ → Ordering) (P : κ → Prop) (below : κ → Bool) : Prop :=
  ∀ k l, P k → P l → (cmp k l).isLE → below l = true → below k = true

/-- All keys of a leaf that is left of where the answer turns to no are below. -/
theorem below_of_leftOf {below : κ → Bool} (hBelow : Downward cmp P below) {ps : List (Piece κ)}
    (hP : Everywhere P ps) (hLeft : LeftOf cmp below ps) :
    ∀ e ∈ entriesOf ps, below e.1 = true := by
  intro e he
  have hKey := key_mem_marksOf he
  obtain ⟨s, hs, hYes, hSame | hBefore⟩ := hLeft _ hKey
  · cases hSame
  · refine hBelow e.1 s (hP _ hKey) (hP _ hs) ?_ hYes
    rw [Mark.Before] at hBefore
    simp [hBefore]

theorem not_below_of_rightOf [Std.OrientedCmp cmp] {below : κ → Bool}
    (hBelow : Downward cmp P below) {ps : List (Piece κ)} (hP : Everywhere P ps)
    (hRight : RightOf cmp below ps) : ∀ e ∈ entriesOf ps, below e.1 = false := by
  intro e he
  have hKey := key_mem_marksOf he
  obtain ⟨s, hs, hNo, hSame | hBefore⟩ := hRight _ hKey
  · cases hSame
  · by_contra hYes
    have := hBelow s e.1 (hP _ hs) (hP _ hKey) (isLE_of_ne_lt hBefore) (by simpa using hYes)
    simp [hNo] at this

theorem mem_locate {leaf : NodeId} {i : Nat} {es : Multimap κ} {x : Located κ}
    (hx : x ∈ locate leaf i es) : ∃ e ∈ es, e.1 = x.2.1 := by
  obtain ⟨⟨e, j⟩, he, hx⟩ := List.mem_flatMap.1 hx
  obtain ⟨-, -, rfl⟩ := List.mem_map.1 hx
  exact ⟨e, List.fst_mem_of_mem_zipIdx he, rfl⟩

theorem mem_located {ps : List (Page κ)} {x : Located κ} (hx : x ∈ located ps) :
    ∃ e ∈ ps.flatMap Page.entries, e.1 = x.2.1 := by
  obtain ⟨xs, ys, hSplit⟩ := List.append_of_mem hx
  obtain ⟨s, rfl, -, -⟩ := exists_spot hSplit
  refine ⟨s.entry, List.mem_flatMap.2 ⟨s.page, s.page_mem, ?_⟩, rfl⟩
  simp [s.entries_eq]

theorem located_eq_nil {ps : List (Page κ)} (h : ps.flatMap Page.entries = []) :
    located ps = [] := by
  rw [List.eq_nil_iff_forall_not_mem]
  intro x hx
  obtain ⟨e, he, -⟩ := mem_located hx
  simp [h] at he

theorem filled_of_fitsBelow {fanout : Nat} : ∀ {h : Nat} {T : Shape κ h},
    Shape.FitsBelow fanout h T → Arena.Filled (leavesOf (Shape.pieces h T))
  | 0, _, hT => fun _ hp => List.mem_singleton.1 hp ▸ hT
  | h + 1, f, hT => by
    intro p hp
    simp only [Shape.pieces, leavesOf_weave, List.mem_flatMap, List.mem_map] at hp
    obtain ⟨_, ⟨c, hc, rfl⟩, hp⟩ := hp
    exact filled_of_fitsBelow (hT.2.2 c hc).1 p hp

theorem dropWhile_append_eq {α : Type} {p : α → Bool} {l r : List α} (hl : ∀ x ∈ l, p x = true)
    (hr : ∀ x ∈ r, p x = false) : (l ++ r).dropWhile p = r := by
  rw [List.dropWhile_append_of_pos hl]
  cases r with
  | nil => rfl
  | cons x r => simp [hr x (by simp)]

/-- The positions that are not below, when the entries below end in one of the leaves. -/
theorem dropWhile_located {before after : List (Page κ)} {p : Page κ} {below : κ → Bool}
    (hBefore : ∀ e ∈ before.flatMap Page.entries, below e.1 = true)
    (hPage : ∀ e ∈ p.entries.dropWhile (below ·.1), below e.1 = false)
    (hAfter : ∀ e ∈ after.flatMap Page.entries, below e.1 = false) :
    (located (before ++ p :: after)).dropWhile (below ·.2.1)
      = locate p.id (p.entries.takeWhile (below ·.1)).length (p.entries.dropWhile (below ·.1)) ++
        located after := by
  have hLocated : located (before ++ p :: after)
      = (located before ++ locate p.id 0 (p.entries.takeWhile (below ·.1))) ++
        (locate p.id (p.entries.takeWhile (below ·.1)).length (p.entries.dropWhile (below ·.1)) ++
          located after) := by
    rw [located_append, located_cons]
    conv_lhs => rw [← List.takeWhile_append_dropWhile (p := (below ·.1)) (l := p.entries)]
    rw [locate_append, Nat.zero_add]
    simp only [List.append_assoc]
  rw [hLocated]
  refine dropWhile_append_eq (fun x hx => ?_) fun x hx => ?_
  · rcases List.mem_append.1 hx with hx | hx
    · obtain ⟨e, he, hKey⟩ := mem_located hx
      exact hKey ▸ hBefore e he
    · obtain ⟨e, he, hKey⟩ := mem_locate hx
      have hEntry : below e.1 = true :=
        List.mem_takeWhile_imp (p := fun e : Entry κ => below e.1) he
      exact hKey ▸ hEntry
  · rcases List.mem_append.1 hx with hx | hx
    · obtain ⟨e, he, hKey⟩ := mem_locate hx
      exact hKey ▸ hPage e he
    · obtain ⟨e, he, hKey⟩ := mem_located hx
      exact hKey ▸ hAfter e he

/-- What is below comes first in a list in order. -/
theorem Downward.not_below_of_mem_dropWhile {α : Type} {below : κ → Bool}
    (hBelow : Downward cmp P below) {keyOf : α → κ} {l : List α}
    (hl : l.Pairwise fun x y => (cmp (keyOf x) (keyOf y)).isLE) (hP : ∀ x ∈ l, P (keyOf x)) :
    ∀ x ∈ l.dropWhile (fun x => below (keyOf x)), below (keyOf x) = false := by
  induction l with
  | nil => simp
  | cons x l ih =>
    obtain ⟨hHead, hRest⟩ := List.pairwise_cons.1 hl
    obtain ⟨hx, hPRest⟩ := List.forall_mem_cons.1 hP
    by_cases hYes : below (keyOf x) = true
    · rw [List.dropWhile_cons_of_pos (by simpa using hYes)]
      exact ih hRest hPRest
    · rw [List.dropWhile_cons_of_neg (by simpa using hYes)]
      refine List.forall_mem_cons.2 ⟨by simpa using hYes, fun y hy => ?_⟩
      by_contra hNo
      exact hYes (hBelow _ _ hx (hPRest y hy) (hHead y hy) (by simpa using hNo))

/-- A list in order, cut where the answer turns from yes to no. -/
theorem Downward.exists_span {α : Type} {below : κ → Bool} (hBelow : Downward cmp P below)
    {keyOf : α → κ} {l : List α} (hl : l.Pairwise fun x y => (cmp (keyOf x) (keyOf y)).isLE)
    (hP : ∀ x ∈ l, P (keyOf x)) :
    ∃ yes no, l = yes ++ no ∧ (∀ x ∈ yes, below (keyOf x) = true) ∧
      ∀ x ∈ no, below (keyOf x) = false := by
  refine ⟨_, _, List.takeWhile_append_dropWhile.symm, fun x hx => ?_,
    hBelow.not_below_of_mem_dropWhile hl hP⟩
  exact List.mem_takeWhile_imp (p := fun x => below (keyOf x)) hx

namespace Arena

variable {fanout : Nat} {a : Arena κ} {m : Multimap κ} {h : Nat} {T : Shape κ h}

/-- A descent ends in a leaf of the chain. -/
theorem Draws.exists_descent (hd : a.Draws cmp T) (hT : Shape.Fits fanout h T) (right : κ → Bool) :
    ∃ (before after : List (Piece κ)) (p : Page κ), Shape.pieces h T = before ++ .page p :: after ∧
      LeftOf cmp right before ∧ RightOf cmp right after ∧
      ∀ choose, Follows choose right → a.descend choose a.root = some p.id := by
  have hNone : marksOf ([] : List (Piece κ)) = [] := rfl
  obtain ⟨C, p, hFill, -, -, hLeft, hRight, hDescend⟩ := exists_leaf_below cmp
    right .root T trivial hT (by simpa [Context.before, Context.after] using hd.sorted)
    (by simp [LeftOf, Context.before, hNone]) (by simp [RightOf, Context.after, hNone])
  refine ⟨C.before, C.after, p, ?_, hLeft, hRight, fun choose hChoose => ?_⟩
  · rw [Context.fill] at hFill
    rw [← hFill]
    exact C.pieces_fill (g := 0) p
  · rw [hd.root]
    exact hDescend a choose _ hChoose hd.holds (hd.height_lt hT)

/-- The arena is a list of positions that can be walked in both directions. -/
structure Traverses (cmp : κ → κ → Ordering) (P : κ → Prop) (a : Arena κ)
    (xs : List (Located κ)) : Prop where
  first : a.first = some (xs.head?.map Prod.fst)
  last : a.last = some (xs.getLast?.map Prod.fst)
  seek : ∀ below, Downward cmp P below →
    a.seek below = some ((xs.dropWhile (below ·.2.1)).head?.map Prod.fst)
  next : ∀ l x r, xs = l ++ x :: r → a.next x.1 = some (r.head?.map Prod.fst)
  previous : ∀ l x r, xs = l ++ x :: r → a.previous x.1 = some (l.getLast?.map Prod.fst)
  pair : ∀ l x r, xs = l ++ x :: r → a.pair x.1 = some x.2
  length_eq : xs.length = a.total

theorem Draws.seek_eq [Std.TransCmp cmp] (hd : a.Draws cmp T) (hT : Shape.Fits fanout h T)
    (hP : Everywhere P (Shape.pieces h T)) {below : κ → Bool} (hBelow : Downward cmp P below) :
    a.seek below = some (((located (leavesOf (Shape.pieces h T))).dropWhile
      (below ·.2.1)).head?.map Prod.fst) := by
  obtain ⟨before, after, p, hPieces, hLeft, hRight, hDescend⟩ := hd.exists_descent hT below
  have hLeaves : leavesOf (Shape.pieces h T) = leavesOf before ++ p :: leavesOf after := by
    rw [hPieces, leavesOf_append, leavesOf_page]
  have hFilled := filled_of_fitsBelow hT.1
  obtain ⟨n, hn, hLists, -, -⟩ := hd.chains.leaf _ _ _ hLeaves
  have hSlot : (n.keys.takeWhile below).length
      = (p.entries.takeWhile (below ·.1)).length := by
    rw [hLists.keys, List.takeWhile_map, List.length_map]
    rfl
  have hForward := hd.chains.forwardFrom_eq hFilled hLeaves (n.keys.takeWhile below).length
  rw [hPieces, everywhere_append, everywhere_page] at hP
  obtain ⟨hPBefore, hPPage, hPAfter⟩ := hP
  have hAscending : p.entries.Pairwise fun e f => (cmp e.1 f.1).isLE := by
    have := hd.sorted.ascending
    rw [hPieces, entriesOf_append, entriesOf_page] at this
    exact (List.pairwise_append.1 (List.pairwise_append.1 this).2.1).1.imp Ordering.isLE_of_eq_lt
  have hDrop := dropWhile_located (below_of_leftOf hBelow hPBefore hLeft)
    (hBelow.not_below_of_mem_dropWhile hAscending hPPage)
    (not_below_of_rightOf hBelow hPAfter hRight)
  rw [hSlot, drop_length_takeWhile] at hForward
  rw [seek, hDescend _ (follows_route below), hLeaves, hDrop]
  simp only [Option.bind_eq_bind, Option.bind_some, hn, hSlot, hForward]

theorem entriesOf_eq_nil {ps : List (Piece κ)} (hps : marksOf ps = []) : entriesOf ps = [] := by
  rw [List.eq_nil_iff_forall_not_mem]
  intro e he
  simpa [hps] using key_mem_marksOf he

theorem Draws.first_eq (hd : a.Draws cmp T) (hT : Shape.Fits fanout h T) :
    a.first = some ((located (leavesOf (Shape.pieces h T))).head?.map Prod.fst) := by
  obtain ⟨before, after, p, hPieces, hLeft, -, hDescend⟩ := hd.exists_descent hT fun _ => false
  have hLeaves : leavesOf (Shape.pieces h T) = leavesOf before ++ p :: leavesOf after := by
    rw [hPieces, leavesOf_append, leavesOf_page]
  have hNothing : located (leavesOf before) = [] := by
    refine located_eq_nil (entriesOf_eq_nil (List.eq_nil_iff_forall_not_mem.2 fun m hm => ?_))
    obtain ⟨s, -, hs, -⟩ := hLeft m hm
    cases hs
  have hForward := hd.chains.forwardFrom_eq (filled_of_fitsBelow hT.1) hLeaves 0
  rw [first, hDescend _ follows_first, hLeaves, located_append, hNothing, List.nil_append,
    located_cons]
  exact hForward

theorem Draws.last_eq (hd : a.Draws cmp T) (hT : Shape.Fits fanout h T) :
    a.last = some ((located (leavesOf (Shape.pieces h T))).getLast?.map Prod.fst) := by
  obtain ⟨before, after, p, hPieces, -, hRight, hDescend⟩ := hd.exists_descent hT fun _ => true
  have hLeaves : leavesOf (Shape.pieces h T) = leavesOf before ++ p :: leavesOf after := by
    rw [hPieces, leavesOf_append, leavesOf_page]
  have hNothing : located (leavesOf after) = [] := by
    refine located_eq_nil (entriesOf_eq_nil (List.eq_nil_iff_forall_not_mem.2 fun m hm => ?_))
    obtain ⟨s, -, hs, -⟩ := hRight m hm
    cases hs
  have hBackward := hd.chains.backwardFrom_eq (filled_of_fitsBelow hT.1) hLeaves
  rw [last, hDescend _ follows_last, hLeaves, ← List.singleton_append (l := leavesOf after),
    ← List.append_assoc, located_append, hNothing, List.append_nil]
  exact hBackward

theorem Draws.traverses [Std.TransCmp cmp] (hd : a.Draws cmp T) (hT : Shape.Fits fanout h T)
    (hP : Everywhere P (Shape.pieces h T)) :
    a.Traverses cmp P (located (leavesOf (Shape.pieces h T))) where
  first := hd.first_eq hT
  last := hd.last_eq hT
  seek _ hBelow := hd.seek_eq hT hP hBelow
  next _ _ _ hSplit := hd.chains.next_eq (filled_of_fitsBelow hT.1) hSplit
  previous _ _ _ hSplit := hd.chains.previous_eq (filled_of_fitsBelow hT.1) hSplit
  pair _ _ _ hSplit := hd.chains.pair_eq hSplit
  length_eq := by
    rw [hd.total_eq, entriesOf, ← located_map_snd, List.length_map]

theorem Represents.exists_traverses [Std.TransCmp cmp] (hm : a.Represents cmp fanout P m) :
    ∃ xs, a.Traverses cmp P xs ∧ xs.map Prod.snd = m.pairs := by
  obtain ⟨h, T, hd, hT, rfl, hP⟩ := hm
  exact ⟨_, hd.traverses hT hP, located_map_snd _⟩

/-- No entry is empty. -/
theorem Represents.ids_ne_nil (hm : a.Represents cmp fanout P m) : ∀ e ∈ m, e.2 ≠ [] := by
  obtain ⟨h, T, -, hT, rfl, -⟩ := hm
  intro e he
  obtain ⟨p, hp, hMem⟩ := List.mem_flatMap.1 he
  exact filled_of_fitsBelow hT.1 p hp e hMem

theorem Represents.keys (hm : a.Represents cmp fanout P m) : ∀ e ∈ m, P e.1 := by
  obtain ⟨h, T, -, -, rfl, hP⟩ := hm
  exact fun e he => hP _ (key_mem_marksOf he)

/-! ### Walks -/

theorem Traverses.walkWithin_next {xs : List (Located κ)} (hx : a.Traverses cmp P xs) {ids : Nat}
    {l r : List (Located κ)} (hSplit : xs = l ++ r) (hIds : r.length ≤ ids) :
    a.walkWithin a.next ids (r.head?.map Prod.fst) = some (r.map Prod.snd) := by
  induction r generalizing l ids with
  | nil => simp [walkWithin]
  | cons x r ih =>
    obtain ⟨ids, rfl⟩ := Nat.exists_eq_add_one.2 (Nat.zero_lt_of_lt hIds)
    have hRest := ih (l := l ++ [x]) (by simp [hSplit]) (Nat.le_of_succ_le_succ hIds)
    rw [List.head?_cons, Option.map_some, walkWithin]
    simp [hx.pair l x r hSplit, hx.next l x r hSplit, hRest]

theorem Traverses.walk_next {xs : List (Located κ)} (hx : a.Traverses cmp P xs)
    {l r : List (Located κ)} (hSplit : xs = l ++ r) :
    a.walk a.next (r.head?.map Prod.fst) = some (r.map Prod.snd) := by
  refine hx.walkWithin_next hSplit ?_
  rw [← hx.length_eq, hSplit, List.length_append]
  exact Nat.le_add_left ..

theorem Traverses.walkWithin_previous {xs : List (Located κ)} (hx : a.Traverses cmp P xs)
    {ids : Nat} {l r : List (Located κ)} (hSplit : xs = l ++ r) (hIds : l.length ≤ ids) :
    a.walkWithin a.previous ids (l.getLast?.map Prod.fst) = some (l.reverse.map Prod.snd) := by
  induction l using List.reverseRecOn generalizing r ids with
  | nil => simp [walkWithin]
  | append_singleton l x ih =>
    rw [List.append_assoc, List.singleton_append] at hSplit
    rw [List.length_append, List.length_singleton] at hIds
    obtain ⟨ids, rfl⟩ := Nat.exists_eq_add_one.2 (Nat.zero_lt_of_lt hIds)
    have hRest := ih hSplit (Nat.le_of_succ_le_succ hIds)
    rw [List.getLast?_concat, Option.map_some, walkWithin]
    simp [hx.pair l x r hSplit, hx.previous l x r hSplit, hRest]

theorem Traverses.walk_previous {xs : List (Located κ)} (hx : a.Traverses cmp P xs)
    {l r : List (Located κ)} (hSplit : xs = l ++ r) :
    a.walk a.previous (l.getLast?.map Prod.fst) = some (l.reverse.map Prod.snd) := by
  refine hx.walkWithin_previous hSplit ?_
  rw [← hx.length_eq, hSplit, List.length_append]
  exact Nat.le_add_right ..

end Arena

end IndexScan

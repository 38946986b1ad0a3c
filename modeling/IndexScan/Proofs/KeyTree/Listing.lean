import IndexScan.Proofs.KeyTree.Operations

/-!
# What positions list

Positions of an arena are in the order of `located`: leaf by leaf along the chain, key by key,
identity by identity.  Every way to move is described on this one list.  A position in it cuts it
in two, and the moves lead to the head of what comes after and the last of what comes before,
however many empty leaves are between.
-/

namespace IndexScan

variable {κ : Type}

/-- A position, and the identity that is there with its key. -/
abbrev Located (κ : Type) := Position × κ × RowId

/-- The identities under one key, of which the first has number `k`. -/
def numbered (leaf : NodeId) (i : Nat) (key : κ) (k : Nat) (ids : List RowId) : List (Located κ) :=
  (ids.zipIdx k).map fun (id, k) => (⟨leaf, i, k⟩, key, id)

/-- The identities in a leaf from the key with number `i` on, which are those of the entries. -/
def locate (leaf : NodeId) (i : Nat) (es : Multimap κ) : List (Located κ) :=
  (es.zipIdx i).flatMap fun (e, i) => numbered leaf i e.1 0 e.2

def located (ps : List (Page κ)) : List (Located κ) := ps.flatMap fun p => locate p.id 0 p.entries

section

variable (leaf : NodeId) (i k : Nat) (key : κ)

@[simp] theorem numbered_nil : numbered leaf i key k [] = [] := rfl

theorem numbered_cons (id : RowId) (ids : List RowId) : numbered leaf i key k (id :: ids)
    = (⟨leaf, i, k⟩, key, id) :: numbered leaf i key (k + 1) ids := rfl

theorem numbered_append (ids ids' : List RowId) : numbered leaf i key k (ids ++ ids')
    = numbered leaf i key k ids ++ numbered leaf i key (k + ids.length) ids' := by
  simp [numbered, List.zipIdx_append]

@[simp] theorem locate_nil : locate leaf i ([] : Multimap κ) = [] := rfl

theorem locate_cons (e : Entry κ) (es : Multimap κ) :
    locate leaf i (e :: es) = numbered leaf i e.1 0 e.2 ++ locate leaf (i + 1) es := rfl

theorem locate_append (es fs : Multimap κ) :
    locate leaf i (es ++ fs) = locate leaf i es ++ locate leaf (i + es.length) fs := by
  simp [locate, List.zipIdx_append]

@[simp] theorem located_nil : located ([] : List (Page κ)) = [] := rfl

theorem located_cons (p : Page κ) (ps : List (Page κ)) :
    located (p :: ps) = locate p.id 0 p.entries ++ located ps := rfl

theorem located_append (ps qs : List (Page κ)) : located (ps ++ qs) = located ps ++ located qs := by
  simp [located]

end

/-- The positions list the identities in order. -/
theorem located_map_snd (ps : List (Page κ)) :
    (located ps).map Prod.snd = Multimap.pairs (ps.flatMap Page.entries) := by
  have hNumbered : ∀ (leaf : NodeId) (i : Nat) (key : κ) (k : Nat) (ids : List RowId),
      (numbered leaf i key k ids).map Prod.snd = ids.map (key, ·) := by
    intro leaf i key k ids
    induction ids generalizing k with
    | nil => rfl
    | cons id ids ih => rw [numbered_cons, List.map_cons, ih, List.map_cons]
  have hLocate : ∀ (leaf : NodeId) (i : Nat) (es : Multimap κ),
      (locate leaf i es).map Prod.snd = Multimap.pairs es := by
    intro leaf i es
    induction es generalizing i with
    | nil => rfl
    | cons e es ih => rw [locate_cons, List.map_append, hNumbered, ih]; rfl
  induction ps with
  | nil => rfl
  | cons p ps ih =>
    rw [located_cons, List.map_append, hLocate, ih, List.flatMap_cons, Multimap.pairs,
      Multimap.pairs, Multimap.pairs, List.flatMap_append]

theorem getLast?_numbered (leaf : NodeId) (i : Nat) (key : κ) {ids : List RowId} (h : ids ≠ []) :
    ((numbered leaf i key 0 ids).getLast?.map Prod.fst) = some ⟨leaf, i, ids.length - 1⟩ := by
  obtain ⟨init, id, rfl⟩ := (List.eq_nil_or_concat ids).resolve_left h
  rw [List.concat_eq_append, numbered_append, numbered_cons]
  simp

theorem getLast?_locate (leaf : NodeId) {e : Entry κ} (es : Multimap κ) (he : e.2 ≠ []) :
    ((locate leaf 0 (es ++ [e])).getLast?.map Prod.fst)
      = some ⟨leaf, es.length, e.2.length - 1⟩ := by
  rw [locate_append, locate_cons, locate_nil, List.append_nil, Nat.zero_add, List.getLast?_append,
    Option.map_or, getLast?_numbered _ _ _ he, Option.some_or]

/-! ### Where a position is -/

/-- An element of a list of lists is in one of the lists. -/
theorem exists_of_flatMap_eq {α β : Type} {f : α → List β} {ps : List α} {xs ys : List β} {x : β}
    (h : ps.flatMap f = xs ++ x :: ys) : ∃ l p r u v, ps = l ++ p :: r ∧ f p = u ++ x :: v ∧
      xs = l.flatMap f ++ u ∧ ys = v ++ r.flatMap f := by
  induction ps generalizing xs with
  | nil => simp at h
  | cons p ps ih =>
    rw [List.flatMap_cons, List.append_eq_append_iff] at h
    obtain ⟨xs', rfl, hRest⟩ | ⟨v, hFirst, hRest⟩ := h
    · obtain ⟨l, q, r, u, v, rfl, hq, rfl, rfl⟩ := ih hRest
      exact ⟨p :: l, q, r, u, v, rfl, hq, by simp, rfl⟩
    · cases v with
      | nil =>
        obtain ⟨l, q, r, u, v, rfl, hq, hu, rfl⟩ :=
          ih (by simpa using hRest.symm : ps.flatMap f = [] ++ _)
        obtain ⟨hl, rfl⟩ := List.append_eq_nil_iff.1 hu.symm
        exact ⟨p :: l, q, r, [], v, rfl, hq, by simpa [hl] using hFirst.symm, rfl⟩
      | cons y v =>
        obtain ⟨rfl, rfl⟩ := List.cons_eq_cons.1 hRest
        exact ⟨[], p, ps, xs, v, rfl, hFirst, rfl, rfl⟩

/-- One identity under a key of a leaf, with all that is around it in its entry, its leaf and the
chain. -/
structure Spot (ps : List (Page κ)) where
  left : List (Page κ)
  page : Page κ
  right : List (Page κ)
  below : Multimap κ
  entry : Entry κ
  above : Multimap κ
  earlier : List RowId
  id : RowId
  later : List RowId
  pages_eq : ps = left ++ page :: right
  entries_eq : page.entries = below ++ entry :: above
  ids_eq : entry.2 = earlier ++ id :: later

namespace Spot

variable {ps : List (Page κ)} (s : Spot ps)

theorem page_mem : s.page ∈ ps := by
  have hMem : s.page ∈ s.left ++ s.page :: s.right := by simp
  exact (congrArg (s.page ∈ ·) s.pages_eq).mpr hMem

def here : Located κ := (⟨s.page.id, s.below.length, s.earlier.length⟩, s.entry.1, s.id)

def before : List (Located κ) :=
  located s.left ++
    (locate s.page.id 0 s.below ++ numbered s.page.id s.below.length s.entry.1 0 s.earlier)

def after : List (Located κ) :=
  numbered s.page.id s.below.length s.entry.1 (s.earlier.length + 1) s.later ++
    (locate s.page.id (s.below.length + 1) s.above ++ located s.right)

end Spot

theorem exists_spot {ps : List (Page κ)} {xs ys : List (Located κ)} {x : Located κ}
    (h : located ps = xs ++ x :: ys) :
    ∃ s : Spot ps, x = s.here ∧ xs = s.before ∧ ys = s.after := by
  obtain ⟨left, page, right, _, _, hPages, hPage, rfl, rfl⟩ := exists_of_flatMap_eq h
  obtain ⟨_, ⟨entry, i⟩, _, _, _, hEntries, hEntry, rfl, rfl⟩ := exists_of_flatMap_eq hPage
  obtain ⟨below, rest, hSplit, rfl, hRest⟩ := List.zipIdx_eq_append_iff.1 hEntries
  obtain ⟨_, above, rfl, hEq, rfl⟩ := List.zipIdx_eq_cons_iff.1 hRest.symm
  obtain ⟨rfl, rfl⟩ := Prod.mk.inj hEq
  obtain ⟨_, _, hIds, rfl, hRest⟩ := List.map_eq_append_iff.1 hEntry
  obtain ⟨⟨id, k⟩, _, rfl, hHere, rfl⟩ := List.map_eq_cons_iff.1 hRest
  obtain ⟨earlier, _, hIdsSplit, rfl, hRest⟩ := List.zipIdx_eq_append_iff.1 hIds
  obtain ⟨_, later, rfl, hEq, rfl⟩ := List.zipIdx_eq_cons_iff.1 hRest.symm
  obtain ⟨rfl, rfl⟩ := Prod.mk.inj hEq
  refine ⟨⟨left, page, right, below, entry, above, earlier, id, later, hPages, hSplit, hIdsSplit⟩,
    ?_, ?_, ?_⟩
  · simpa [Spot.here] using hHere.symm
  · simp [Spot.before, located, locate, numbered]
  · simp [Spot.after, located, locate, numbered]

namespace Arena

variable {cmp : κ → κ → Ordering} {a : Arena κ}

/-! ### The chain of leaves -/

/-- The leaves form a chain in both directions. -/
structure Chains (a : Arena κ) (ps : List (Page κ)) : Prop where
  length_le : ps.length ≤ a.nodes.size
  leaf : ∀ l p r, ps = l ++ p :: r → ∃ n, a.node? p.id = some n ∧ n.Lists p.entries ∧
    n.previous = l.getLast?.map Page.id ∧ n.next = r.head?.map Page.id

theorem Draws.chains {h : Nat} {T : Shape κ h} (hd : a.Draws cmp T) :
    a.Chains (leavesOf (Shape.pieces h T)) := by
  refine ⟨hd.leaves_length_le, fun l p r hPages => ?_⟩
  obtain ⟨q, hq⟩ := Shape.mem_records_of_leaf h none T p (by simp [hPages])
  obtain ⟨n, hn, hUnlinked⟩ := hd.holds.exists_node _ _ hq
  obtain ⟨-, -, -, hKeys, hIds⟩ := Node.leaf_of_unlinked hUnlinked
  have hLinked := hd.linked
  rw [hPages, List.map_append, List.map_cons] at hLinked
  have hLinks := hLinked.links_eq.1
  rw [links?, hn, Option.map_some, Option.some.injEq, Option.or_none, List.getLast?_map,
    List.head?_map] at hLinks
  exact ⟨n, hn, ⟨hKeys, hIds⟩, congrArg Prod.fst hLinks, congrArg Prod.snd hLinks⟩

/-- No entry is empty. -/
def Filled (ps : List (Page κ)) : Prop := ∀ p ∈ ps, ∀ e ∈ p.entries, e.2 ≠ []

theorem forwardWithin_node {leaf : NodeId} {n : Node κ} {es : Multimap κ}
    (hn : a.node? leaf = some n) (hLists : n.Lists es) (hf : ∀ e ∈ es, e.2 ≠ [])
    (leaves i : Nat) : a.forwardWithin (leaves + 1) leaf i
      = ((locate leaf i (es.drop i)).head?.map fun x => some x.1).or
        (n.next.elim (some none) (a.forwardWithin leaves · 0)) := by
  have hLength : n.keys.length = es.length := by rw [hLists.keys, List.length_map]
  rw [forwardWithin, hn]
  by_cases hi : i < es.length
  · obtain ⟨e, fs, hDrop⟩ := List.exists_cons_of_length_pos (l := es.drop i) (by simp; omega)
    have he : e ∈ es := List.mem_of_mem_drop (hDrop ▸ List.mem_cons_self)
    obtain ⟨id, ids, hIds⟩ := List.exists_cons_of_ne_nil (hf e he)
    simp [hLength, hi, hDrop, locate_cons, hIds, numbered_cons]
  · rw [List.drop_eq_nil_of_le (Nat.le_of_not_lt hi)]
    simp only [Option.bind_eq_bind, Option.bind_some, hLength, if_neg hi, locate_nil]
    cases n.next <;> rfl

/-- Forward over empty leaves. -/
theorem Chains.forwardWithin_eq {ps : List (Page κ)} (hc : a.Chains ps) (hf : Filled ps)
    {l : List (Page κ)} {p : Page κ} {r : List (Page κ)} (hPages : ps = l ++ p :: r) (i : Nat)
    {leaves : Nat} (hLeaves : r.length < leaves) :
    a.forwardWithin leaves p.id i
      = some ((locate p.id i (p.entries.drop i) ++ located r).head?.map Prod.fst) := by
  obtain ⟨leaves, rfl⟩ := Nat.exists_eq_add_one.2 (Nat.zero_lt_of_lt hLeaves)
  induction r generalizing l p i leaves with
  | nil =>
    obtain ⟨n, hn, hLists, -, hNext⟩ := hc.leaf l p [] hPages
    rw [forwardWithin_node hn hLists (hf p (by simp [hPages])), hNext]
    cases (locate p.id i (p.entries.drop i)) <;> simp
  | cons q r ih =>
    obtain ⟨n, hn, hLists, -, hNext⟩ := hc.leaf l p (q :: r) hPages
    rw [forwardWithin_node hn hLists (hf p (by simp [hPages])), hNext]
    replace hLeaves := Nat.lt_of_succ_lt_succ hLeaves
    obtain ⟨leaves, rfl⟩ := Nat.exists_eq_add_one.2 (Nat.zero_lt_of_lt hLeaves)
    have hRest := ih (l := l ++ [p]) (p := q) (by simp [hPages]) 0 leaves hLeaves
    rw [List.drop_zero, ← located_cons] at hRest
    cases (locate p.id i (p.entries.drop i)) <;> simp [hRest]

theorem Chains.forwardFrom_eq {ps : List (Page κ)} (hc : a.Chains ps) (hf : Filled ps)
    {l : List (Page κ)} {p : Page κ} {r : List (Page κ)} (hPages : ps = l ++ p :: r) (i : Nat) :
    a.forwardFrom p.id i
      = some ((locate p.id i (p.entries.drop i) ++ located r).head?.map Prod.fst) := by
  have hLength := hc.length_le
  rw [hPages, List.length_append, List.length_cons] at hLength
  exact hc.forwardWithin_eq hf hPages i (by omega)

theorem backwardWithin_node {leaf : NodeId} {n : Node κ} {es : Multimap κ}
    (hn : a.node? leaf = some n) (hLists : n.Lists es) (hf : ∀ e ∈ es, e.2 ≠ []) (leaves : Nat) :
    a.backwardWithin (leaves + 1) leaf = ((locate leaf 0 es).getLast?.map fun x => some x.1).or
      (n.previous.elim (some none) (a.backwardWithin leaves)) := by
  rw [backwardWithin, hn]
  rcases List.eq_nil_or_concat es with rfl | ⟨init, e, rfl⟩
  · have hIds : n.ids = [] := hLists.ids
    simp only [Option.bind_eq_bind, Option.bind_some, hIds, List.getLast?_nil, locate_nil]
    cases n.previous <;> rfl
  · rw [List.concat_eq_append] at hLists hf ⊢
    have hLast := getLast?_locate leaf init (hf e (by simp))
    have hIds : n.ids.getLast? = some e.2 := by simp [hLists.ids]
    have hKeys : n.keys.length - 1 = init.length := by simp [hLists.keys]
    obtain ⟨x, hx, hPosition⟩ := Option.map_eq_some_iff.1 hLast
    simp [hIds, hKeys, hx, hPosition]

/-- Backward over empty leaves. -/
theorem Chains.backwardWithin_eq {ps : List (Page κ)} (hc : a.Chains ps) (hf : Filled ps)
    {l : List (Page κ)} {p : Page κ} {r : List (Page κ)} (hPages : ps = l ++ p :: r)
    {leaves : Nat} (hLeaves : l.length < leaves) :
    a.backwardWithin leaves p.id = some ((located (l ++ [p])).getLast?.map Prod.fst) := by
  rw [located_append, located_cons, located_nil, List.append_nil, List.getLast?_append]
  obtain ⟨leaves, rfl⟩ := Nat.exists_eq_add_one.2 (Nat.zero_lt_of_lt hLeaves)
  induction l using List.reverseRecOn generalizing p r leaves with
  | nil =>
    obtain ⟨n, hn, hLists, hPrevious, -⟩ := hc.leaf [] p r hPages
    rw [backwardWithin_node hn hLists (hf p (by simp [hPages])), hPrevious]
    cases (locate p.id 0 p.entries).getLast? <;> simp
  | append_singleton l q ih =>
    obtain ⟨n, hn, hLists, hPrevious, -⟩ := hc.leaf (l ++ [q]) p r hPages
    rw [List.length_append, List.length_singleton] at hLeaves
    replace hLeaves := Nat.lt_of_succ_lt_succ hLeaves
    obtain ⟨leaves, rfl⟩ := Nat.exists_eq_add_one.2 (Nat.zero_lt_of_lt hLeaves)
    have hRest := ih (p := q) (r := p :: r) (by simp [hPages]) leaves hLeaves
    rw [backwardWithin_node hn hLists (hf p (by simp [hPages])), hPrevious, located_append,
      located_cons, located_nil, List.append_nil, List.getLast?_append]
    cases (locate p.id 0 p.entries).getLast? <;> simp [hRest]

theorem Chains.backwardFrom_eq {ps : List (Page κ)} (hc : a.Chains ps) (hf : Filled ps)
    {l : List (Page κ)} {p : Page κ} {r : List (Page κ)} (hPages : ps = l ++ p :: r) :
    a.backwardFrom p.id = some ((located (l ++ [p])).getLast?.map Prod.fst) := by
  have hLength := hc.length_le
  rw [hPages, List.length_append, List.length_cons] at hLength
  exact hc.backwardWithin_eq hf hPages (by omega)

/-! ### Moves -/

variable {ps : List (Page κ)} {xs ys : List (Located κ)} {x : Located κ}

theorem Chains.pair_eq (hc : a.Chains ps) (h : located ps = xs ++ x :: ys) :
    a.pair x.1 = some x.2 := by
  obtain ⟨s, rfl, -, -⟩ := exists_spot h
  obtain ⟨n, hn, hLists, -, -⟩ := hc.leaf _ _ _ s.pages_eq
  have hKey : n.keys[s.below.length]? = some s.entry.1 := by simp [hLists.keys, s.entries_eq]
  have hIds : n.ids[s.below.length]? = some s.entry.2 := by simp [hLists.ids, s.entries_eq]
  have hId : s.entry.2[s.earlier.length]? = some s.id := by simp [s.ids_eq]
  simp [Spot.here, pair, hn, hKey, hIds, hId]

theorem Chains.next_eq (hc : a.Chains ps) (hf : Filled ps) (h : located ps = xs ++ x :: ys) :
    a.next x.1 = some (ys.head?.map Prod.fst) := by
  obtain ⟨s, rfl, -, rfl⟩ := exists_spot h
  obtain ⟨n, hn, hLists, -, -⟩ := hc.leaf _ _ _ s.pages_eq
  have hIds : n.ids[s.below.length]? = some s.entry.2 := by simp [hLists.ids, s.entries_eq]
  have hForward := hc.forwardFrom_eq hf s.pages_eq (s.below.length + 1)
  have hDrop : s.page.entries.drop (s.below.length + 1) = s.above := by simp [s.entries_eq]
  rw [hDrop] at hForward
  rw [Spot.here, Spot.after]
  cases hLater : s.later with
  | nil =>
    have hEnd : ¬ s.earlier.length + 1 < s.entry.2.length := by simp [s.ids_eq, hLater]
    simp [next, hn, hIds, hEnd, hForward]
  | cons id later =>
    have hMore : s.earlier.length + 1 < s.entry.2.length := by simp [s.ids_eq, hLater]
    simp [next, hn, hIds, hMore, numbered_cons]

theorem Chains.previous_eq (hc : a.Chains ps) (hf : Filled ps) (h : located ps = xs ++ x :: ys) :
    a.previous x.1 = some (xs.getLast?.map Prod.fst) := by
  obtain ⟨s, rfl, rfl, -⟩ := exists_spot h
  obtain ⟨n, hn, hLists, hPrevious, -⟩ := hc.leaf _ _ _ s.pages_eq
  have hFilled := hf s.page s.page_mem
  rw [Spot.here, Spot.before, List.getLast?_append, List.getLast?_append]
  rcases List.eq_nil_or_concat s.earlier with hEarlier | ⟨earlier, id, hEarlier⟩
  · rcases List.eq_nil_or_concat s.below with hBelow | ⟨below, e, hBelow⟩
    · -- the first identity of the leaf
      rw [hEarlier, hBelow, numbered_nil, locate_nil]
      rcases List.eq_nil_or_concat s.left with hLeft | ⟨left, q, hLeft⟩
      · simp [previous, hn, hPrevious, hLeft]
      · rw [List.concat_eq_append] at hLeft
        have hPages := s.pages_eq
        rw [hLeft, List.append_assoc] at hPages
        have hBackward := hc.backwardFrom_eq hf hPages
        simp [previous, hn, hPrevious, hLeft, hBackward]
    · -- the first identity under a key that is not the first
      rw [List.concat_eq_append] at hBelow
      have he : e.2 ≠ [] := hFilled e (by rw [s.entries_eq, hBelow]; simp)
      have hIds : n.ids[below.length]? = some e.2 := by
        simp [hLists.ids, s.entries_eq, hBelow]
      have hLast := getLast?_locate s.page.id below he
      obtain ⟨x, hx, hPosition⟩ := Option.map_eq_some_iff.1 hLast
      simp [previous, hn, hEarlier, hBelow, hIds, hx, hPosition]
  · rw [List.concat_eq_append] at hEarlier
    have hLast := getLast?_numbered s.page.id s.below.length s.entry.1
      (by simp [hEarlier] : s.earlier ≠ [])
    obtain ⟨x, hx, hPosition⟩ := Option.map_eq_some_iff.1 hLast
    have hMore : 0 < s.earlier.length := by simp [hEarlier]
    simp [previous, hMore, hx, hPosition]

end Arena

end IndexScan

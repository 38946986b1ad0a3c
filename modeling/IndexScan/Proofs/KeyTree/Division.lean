import IndexScan.Proofs.KeyTree.Descent

/-!
# Dividing nodes

A node that is too large is divided in its context, and the new node is attached to the branch
above, which is the next node that may be too large.  Between the two steps the arena is
`Divided`: the new node hangs under the parent of the old one already, but no branch names it as
a child.  The induction over the context follows the divisions upwards.
-/

namespace IndexScan

variable {κ : Type} {cmp : κ → κ → Ordering} {g h : Nat}

/-! ### Leaves of a shape -/

theorem leavesOf_weave : ∀ (pss : List (List (Piece κ))) (ss : List κ),
    leavesOf (weave pss ss) = pss.flatMap leavesOf
  | [], _ => rfl
  | ps :: pss, [] => by
    rw [weave, leavesOf_append, leavesOf_weave pss [], List.flatMap_cons]
  | ps :: pss, s :: ss => by
    rw [weave, leavesOf_append, leavesOf_separator, leavesOf_weave pss ss, List.flatMap_cons]

/-- Every leaf of a shape is among its nodes. -/
theorem Shape.mem_records_of_leaf : ∀ (h : Nat) (parent : Option NodeId) (T : Shape κ h)
    (p : Page κ), p ∈ leavesOf (pieces h T) → ∃ q, (p.id, node 0 q p) ∈ records h parent T
  | 0, parent, T, p, hp => by
    obtain rfl : p = T := List.mem_singleton.1 hp
    exact ⟨parent, Multiset.mem_singleton_self _⟩
  | h + 1, parent, f, p, hp => by
    simp only [pieces, leavesOf_weave, List.mem_flatMap, List.mem_map] at hp
    obtain ⟨_, ⟨c, hc, rfl⟩, hp⟩ := hp
    obtain ⟨q, hq⟩ := mem_records_of_leaf h (some (Fork.id f)) c p hp
    refine ⟨q, Multiset.mem_cons_of_mem ?_⟩
    obtain ⟨l, r, hlr⟩ := List.append_of_mem hc
    simp [hlr, hq]

theorem Shape.leaf_ids_le : ∀ (h : Nat) (parent : Option NodeId) (T : Shape κ h),
    ((leavesOf (pieces h T)).map Page.id : Multiset NodeId) ≤ (records h parent T).map Prod.fst
  | 0, _, _ => le_of_eq rfl
  | h + 1, parent, f => by
    have hChildren : ∀ cs : List (Shape κ h),
        (((cs.map (pieces h)).flatMap leavesOf).map Page.id : Multiset NodeId)
          ≤ ((cs.map (records h (some (Fork.id f)))).sum).map Prod.fst := by
      intro cs
      induction cs with
      | nil => simp
      | cons c cs ih =>
        simp only [List.map_cons, List.flatMap_cons, List.map_append, List.sum_cons,
          Multiset.map_add, ← Multiset.coe_add]
        exact add_le_add (leaf_ids_le h _ c) ih
    rw [pieces, leavesOf_weave, records, Multiset.map_cons]
    exact (hChildren _).trans (Multiset.le_cons_self _ _)

/-- The identities in the nodes of a shape are those of its entries. -/
theorem Shape.sum_ids : ∀ (h : Nat) (parent : Option NodeId) (T : Shape κ h),
    ((records h parent T).map fun r => r.2.ids.flatten.length).sum
      = (Multimap.pairs (entriesOf (pieces h T))).length
  | 0, parent, p => by
    have hEntries : entriesOf (pieces 0 p) = Page.entries p :=
      (entriesOf_page p []).trans (List.append_nil _)
    simp [hEntries, records, node, Multimap.pairs, Function.comp_def]
  | h + 1, parent, f => by
    have hChildren : ∀ cs : List (Shape κ h),
        (((cs.map (records h (some (Fork.id f)))).sum).map fun r => r.2.ids.flatten.length).sum
          = (Multimap.pairs
            (((cs.map (pieces h)).flatMap leavesOf).flatMap Page.entries)).length := by
      intro cs
      induction cs with
      | nil => rfl
      | cons c cs ih =>
        have hFirst := sum_ids h (some (Fork.id f)) c
        rw [entriesOf] at hFirst
        rw [List.map_cons, List.sum_cons, Multiset.map_add, Multiset.sum_add, hFirst, ih]
        simp [Multimap.pairs]
    rw [records, Multiset.map_cons, Multiset.sum_cons, hChildren, entriesOf, pieces, leavesOf_weave]
    simp [node]

/-- What an arena of a shape is like, apart from the numbers of keys. -/
structure Arena.Draws (cmp : κ → κ → Ordering) (a : Arena κ) (T : Shape κ h) : Prop where
  root : a.root = Shape.id h T
  holds : a.Holds (Shape.records h none T)
  linked : a.Linked none ((leavesOf (Shape.pieces h T)).map Page.id)
  sorted : Sorted cmp (Shape.pieces h T)

/-- What an arena is like when a node in the hole of a context has been divided and the new node
is not yet attached. -/
structure Arena.Divided (cmp : κ → κ → Ordering) (a : Arena κ) (C : Context κ g h)
    (x : Shape κ g) (s : κ) (y : Shape κ g) : Prop where
  root : a.root = Shape.id h (C.fill x)
  holds : a.Holds (C.records (Shape.id g x) +
    (Shape.records g C.parent x + Shape.records g C.parent y))
  linked : a.Linked none ((leavesOf (C.before ++
    ((Shape.pieces g x ++ .separator s :: Shape.pieces g y) ++ C.after))).map Page.id)
  sorted : Sorted cmp (C.before ++
    ((Shape.pieces g x ++ .separator s :: Shape.pieces g y) ++ C.after))

/-- The node on top of a part of a shape. -/
theorem Arena.Draws.exists_node {a : Arena κ} {C : Context κ g h} {x : Shape κ g}
    (hd : a.Draws cmp (C.fill x)) :
    ∃ n, a.node? (Shape.id g x) = some n ∧ n.unlinked = Shape.node g C.parent x := by
  have hHolds := hd.holds
  rw [C.records_fill] at hHolds
  exact hHolds.exists_node _ _ (by simp [Shape.records_eq])

theorem Arena.Draws.nodup_leaves {a : Arena κ} {T : Shape κ h} (hd : a.Draws cmp T) :
    ((leavesOf (Shape.pieces h T)).map Page.id).Nodup := by
  rw [← Multiset.coe_nodup]
  exact Multiset.nodup_of_le (Shape.leaf_ids_le h none T) hd.holds.nodup

theorem Arena.Draws.height_lt {fanout : Nat} {a : Arena κ} {T : Shape κ h} (hd : a.Draws cmp T)
    (hT : Shape.Fits fanout h T) : h < a.nodes.size := by
  rw [← hd.holds.card]
  exact Shape.height_lt_card h none T hT.1

theorem Arena.Draws.leaves_length_le {a : Arena κ} {T : Shape κ h} (hd : a.Draws cmp T) :
    (leavesOf (Shape.pieces h T)).length ≤ a.nodes.size := by
  have hCard := Multiset.card_le_card (Shape.leaf_ids_le h none T)
  rwa [Multiset.coe_card, List.length_map, Multiset.card_map, hd.holds.card] at hCard

theorem Arena.Draws.total_eq {a : Arena κ} {T : Shape κ h} (hd : a.Draws cmp T) :
    a.total = (Multimap.pairs (entriesOf (Shape.pieces h T))).length := by
  rw [hd.holds.total_eq, Shape.sum_ids]

theorem Context.id_fill (C : Context κ g h) {x y : Shape κ g} (hxy : Shape.id g x = Shape.id g y) :
    Shape.id h (C.fill x) = Shape.id h (C.fill y) := by
  induction C with
  | root => exact hxy
  | under fr above ih => exact ih rfl

namespace Arena

theorem Linked.lt_size {a : Arena κ} : ∀ {ids : List NodeId} {p : Option NodeId},
    a.Linked p ids → ∀ j ∈ ids, j < a.nodes.size
  | [], _, _, j, hj => by simp at hj
  | id :: ids, p, hl, j, hj => by
    rcases List.mem_cons.1 hj with rfl | hj
    · have := hl.1
      rw [links?, node?] at this
      by_contra hlt
      rw [Array.getElem?_eq_none (Nat.le_of_not_lt hlt)] at this
      cases this
    · exact hl.2.lt_size j hj

theorem Linked.of_changes {a a' : Arena κ} {ids : List NodeId} {p : Option NodeId}
    (hl : a.Linked p ids) (hc : Changes a a') : a'.Linked p ids :=
  hl.congr fun j hj => hc.links j (hl.lt_size j hj)

/-! ### Cutting a node in two -/

theorem Holds.eq_of_branch {a : Arena κ} {rs : Multiset (NodeId × Node κ)} {p : Option NodeId}
    {x : Shape κ (g + 1)} (ha : a.Holds rs)
    (hx : (Shape.id (g + 1) x, Shape.node (g + 1) p x) ∈ rs) :
    a.node? (Shape.id (g + 1) x) = some (Shape.node (g + 1) p x) := by
  obtain ⟨n, hn, hUnlinked⟩ := ha.exists_node _ _ hx
  exact hn.trans (congrArg some (Node.eq_of_unlinked hUnlinked))

/-- What is left of a branch that is cut in two around a separator. -/
theorem splitBranch_eq {a b c : Arena κ} {id : NodeId} {n : Node κ} {ls rs : List κ} {s : κ}
    {l r : List NodeId} (hn : a.node? id = some n) (hKeys : n.keys = ls ++ s :: rs)
    (hChildren : n.children = l ++ r) (hMid : ls.length = n.keys.length / 2)
    (hLeft : l.length = ls.length + 1)
    (hUpdate : a.update id (fun m => { m with keys := ls, children := l }) = some b)
    (hAdopt : (b.alloc { keys := rs, children := r, parent := n.parent, isLeaf := false }).2.adopt
      b.nodes.size r = some c) :
    a.splitBranch id = some (s, b.nodes.size, c) := by
  have hSeparator : n.keys[ls.length]? = some s := by simp [hKeys]
  have hTake : n.keys.take ls.length = ls := by simp [hKeys]
  have hDrop : n.keys.drop (ls.length + 1) = rs := by simp [hKeys]
  have hKept : n.children.take (ls.length + 1) = l := by simp [hChildren, ← hLeft]
  have hMoved : n.children.drop (ls.length + 1) = r := by simp [hChildren, ← hLeft]
  have hRoom : ¬ n.children.length < ls.length + 1 := by
    rw [hChildren, List.length_append]
    omega
  have hAlloc : ∀ n, (b.alloc n).1 = b.nodes.size := fun _ => rfl
  simp only [splitBranch, hn, ← hMid, hSeparator, hTake, hDrop, hKept, hMoved, if_neg hRoom,
    Option.bind_eq_bind, Option.bind_some, Option.pure_def, hUpdate, hAlloc, hAdopt]

/-- A branch is cut in two around a separator. -/
theorem exists_splitBranch {a : Arena κ} {C : Context κ (g + 1) h} {id : NodeId}
    {ls rs : List κ} {s : κ} {l r : List (Shape κ g)}
    (ha : a.Draws cmp (C.fill (.branch id (ls ++ s :: rs) (l ++ r))))
    (hMid : ls.length = (ls ++ s :: rs).length / 2) (hLeft : l.length = ls.length + 1) :
    ∃ a', a.splitBranch id = some (s, a.nodes.size, a') ∧
      a'.Divided cmp C (.branch id ls l) s (.branch a.nodes.size rs r) := by
  have hHolds := ha.holds
  rw [C.records_fill, Shape.id_branch] at hHolds
  have hn := hHolds.eq_of_branch (x := .branch id (ls ++ s :: rs) (l ++ r)) (p := C.parent)
    (by simp [Shape.records_branch])
  rw [Shape.id_branch] at hn
  have hRecords : C.records id +
      Shape.records (g + 1) C.parent (.branch id (ls ++ s :: rs) (l ++ r))
      = (id, Shape.node (g + 1) C.parent (.branch id (ls ++ s :: rs) (l ++ r))) ::ₘ (C.records id
        + (l.map (Shape.records g (some id))).sum + (r.map (Shape.records g (some id))).sum) := by
    simp only [Shape.records_branch, List.map_append, List.sum_append, ← Multiset.singleton_add]
    abel
  rw [hRecords] at hHolds
  obtain ⟨b, hUpdate, hb, hab, hSize⟩ := hHolds.update_unlinked
    (k := Shape.node (g + 1) C.parent (.branch id ls l))
    (fun m => { m with keys := ls, children := l.map (Shape.id g) })
    (fun m hm => by
      rw [Node.eq_of_unlinked hm]
      exact Shape.node_unlinked (g + 1) C.parent (.branch id ls l))
    (fun m => ⟨rfl, rfl⟩)
  obtain ⟨hc, hbc⟩ := hb.alloc (Shape.node (g + 1) C.parent (.branch b.nodes.size rs r))
  rw [Shape.node_unlinked] at hc
  have hMoved : (b.alloc (Shape.node (g + 1) C.parent (.branch b.nodes.size rs r))).2.Holds
      ((r.map (Shape.records g (some id))).sum +
        ((b.nodes.size, Shape.node (g + 1) C.parent (.branch b.nodes.size rs r)) ::ₘ
          (id, Shape.node (g + 1) C.parent (.branch id ls l)) ::ₘ
            (C.records id + (l.map (Shape.records g (some id))).sum))) := by
    convert hc using 1
    simp only [← Multiset.singleton_add]
    abel
  obtain ⟨d, hAdopt, hd, hcd, -⟩ := hMoved.adopt b.nodes.size
  have hChanges := (hab.trans hbc).trans hcd
  have hPieces := Shape.pieces_cut id s rs r a.nodes.size hLeft
  rw [← hSize] at hPieces ⊢
  refine ⟨d, ?_, ?_, ?_, ?_, ?_⟩
  · exact splitBranch_eq hn rfl (List.map_append ..) hMid ((List.length_map _).trans hLeft)
      hUpdate hAdopt
  · rw [hChanges.root, ha.root]
    exact C.id_fill rfl
  · convert hd using 1
    simp only [Shape.records_branch, Shape.id_branch, ← Multiset.singleton_add]
    abel
  · rw [← hPieces, ← C.pieces_fill]
    exact ha.linked.of_changes hChanges
  · rw [← hPieces, ← C.pieces_fill]
    exact ha.sorted

/-- The leaf to the right of a new one, if there is one, is told so. -/
theorem Holds.exists_relink {a : Arena κ} {rs : Multiset (NodeId × Node κ)} (ha : a.Holds rs)
    (new : NodeId) (next : Option NodeId)
    (hLeaf : ∀ j ∈ next, ∃ q p, (j, Shape.node 0 q p) ∈ rs) :
    ∃ a', a.relink new next = some a' ∧ a'.Holds rs ∧ a'.root = a.root ∧
      a'.nodes.size = a.nodes.size ∧
      ∀ i, a'.links? i = if next = some i then (a.links? i).map fun k => (some new, k.2)
        else a.links? i := by
  cases next with
  | none => exact ⟨a, rfl, ha, rfl, rfl, fun i => rfl⟩
  | some j =>
    obtain ⟨q, p, hj⟩ := hLeaf j rfl
    obtain ⟨rest, rfl⟩ := Multiset.exists_cons_of_mem hj
    obtain ⟨a', hUpdate, hHolds, hRoot, hSize, hNode⟩ :=
      ha.update (k := Shape.node 0 q p) (fun m => { m with previous := some new })
        (fun m hm => by
          obtain ⟨hLeaf, -⟩ := Node.leaf_of_unlinked hm
          rw [← hm, Node.unlinked, Node.unlinked, if_pos hLeaf, if_pos hLeaf])
    refine ⟨a', hUpdate, hHolds, hRoot, hSize, fun i => ?_⟩
    rw [links?, links?, hNode]
    by_cases hji : j = i
    · subst hji
      cases a.node? j <;> simp
    · simp [hji]

/-- The links after a new leaf has been put to the right of the leaf it was cut off from: the new
leaf is linked on both sides, then the one to its right is told, then the one to its left. -/
theorem Linked.divide {a b c d : Arena κ} {ls rs : List NodeId} {id new : NodeId}
    (ha : a.Linked none (ls ++ id :: rs)) (hNodup : (ls ++ id :: rs).Nodup)
    (hFresh : new ∉ ls ++ id :: rs) (hOld : ∀ j ∈ ls ++ id :: rs, b.links? j = a.links? j)
    (hNew : b.links? new = some (some id, rs.head?))
    (hRight : ∀ j, c.links? j = if rs.head? = some j then (b.links? j).map fun k => (some new, k.2)
      else b.links? j)
    (hLeft : ∀ j, d.links? j = if id = j then (c.links? j).map fun k => (k.1, some new)
      else c.links? j) :
    d.Linked none (ls ++ id :: new :: rs) := by
  have hHead : ∀ j, rs.head? = some j → j ∈ rs := fun j => List.mem_of_mem_head?
  obtain ⟨-, hNodupRight, hApart⟩ := List.nodup_append.1 hNodup
  obtain ⟨hId, hNodupRight⟩ := List.nodup_cons.1 hNodupRight
  refine ha.insert (fun j hj => ?_) ?_ ?_ (fun j hj => ?_) fun j hj => ?_
  · have hNotId : id ≠ j := (hApart j hj id (by simp)).symm
    have hNotHead : rs.head? ≠ some j := fun h => hApart j hj j (by simp [hHead j h]) rfl
    rw [hLeft, if_neg hNotId, hRight, if_neg hNotHead, hOld j (by simp [hj])]
  · have hNotHead : rs.head? ≠ some id := fun h => hId (hHead id h)
    rw [hLeft, if_pos rfl, hRight, if_neg hNotHead, hOld id (by simp)]
  · have hNotId : id ≠ new := fun h => hFresh (by simp [h])
    have hNotHead : rs.head? ≠ some new := fun h => hFresh (by simp [hHead _ h])
    rw [hLeft, if_neg hNotId, hRight, if_neg hNotHead, hNew]
  · replace hj : rs.head? = some j := hj
    have hNotId : id ≠ j := fun h => hId (h ▸ hHead j hj)
    rw [hLeft, if_neg hNotId, hRight, if_pos hj, hOld j (by simp [hHead j hj])]
  · have hMem : j ∈ rs := List.mem_of_mem_tail hj
    have hNotId : id ≠ j := fun h => hId (h ▸ hMem)
    have hNotHead : rs.head? ≠ some j := by
      cases hrs : rs with
      | nil => simp
      | cons i rest =>
        rw [hrs] at hj hNodupRight
        exact fun h => (List.nodup_cons.1 hNodupRight).1 (Option.some.inj h ▸ hj)
    rw [hLeft, if_neg hNotId, hRight, if_neg hNotHead, hOld j (by simp [hMem])]

/-- What is left of a leaf that is cut in two before an entry. -/
theorem splitLeaf_eq {a b c : Arena κ} {id : NodeId} {n : Node κ} {l r : Multimap κ} {e : Entry κ}
    (hn : a.node? id = some n) (hKeys : n.keys = (l ++ e :: r).map Prod.fst)
    (hIds : n.ids = (l ++ e :: r).map Prod.snd) (hMid : l.length = n.keys.length / 2)
    (hRelink : (a.alloc {
      keys := (e :: r).map Prod.fst, ids := (e :: r).map Prod.snd, next := n.next,
      previous := some id, parent := n.parent }).2.relink a.nodes.size n.next = some b)
    (hUpdate : b.update id (fun m => { m with
      keys := l.map Prod.fst, ids := l.map Prod.snd, next := some a.nodes.size }) = some c) :
    a.splitLeaf id = some (e.1, a.nodes.size, c) := by
  have hSeparator : n.keys[l.length]? = some e.1 := by simp [hKeys]
  have hRoom : ¬ n.ids.length < l.length := by simp [hIds]
  have hTake : n.keys.take l.length = l.map Prod.fst := by simp [hKeys]
  have hTakeIds : n.ids.take l.length = l.map Prod.snd := by simp [hIds]
  have hDrop : n.keys.drop l.length = (e :: r).map Prod.fst := by simp [hKeys]
  have hDropIds : n.ids.drop l.length = (e :: r).map Prod.snd := by simp [hIds]
  have hAlloc : ∀ m, (a.alloc m).1 = a.nodes.size := fun _ => rfl
  simp only [splitLeaf, hn, ← hMid, if_neg hRoom, hSeparator, hTake, hTakeIds, hDrop, hDropIds,
    hAlloc, Option.bind_eq_bind, Option.bind_some, Option.pure_def]
  exact (congrArg (Option.bind · _) hRelink).trans (congrArg (Option.bind · _) hUpdate)

/-- The numbers of the leaves, around a leaf in a context. -/
theorem Draws.leaf_ids {a : Arena κ} {C : Context κ 0 h} {id : NodeId} {es : Multimap κ}
    (ha : a.Draws cmp (C.fill (.leaf id es))) :
    let ls := (leavesOf C.before).map Page.id
    let rs := (leavesOf C.after).map Page.id
    a.Linked none (ls ++ id :: rs) ∧ (ls ++ id :: rs).Nodup ∧
      ∀ j ∈ rs, ∃ q p, (j, Shape.node 0 q p) ∈
        C.records id + Shape.records 0 C.parent (.leaf id es) := by
  intro ls rs
  have hIds : (leavesOf (Shape.pieces h (C.fill (.leaf id es)))).map Page.id = ls ++ id :: rs := by
    simp [C.pieces_fill, ls, rs]
  refine ⟨hIds ▸ ha.linked, hIds ▸ ha.nodup_leaves, fun j hj => ?_⟩
  obtain ⟨p, hp, rfl⟩ := List.mem_map.1 hj
  obtain ⟨q, hq⟩ := Shape.mem_records_of_leaf h none (C.fill (.leaf id es)) p
    (by simp [C.pieces_fill, hp])
  exact ⟨q, p, by rwa [C.records_fill] at hq⟩

/-- A leaf is cut in two before an entry that is not its first. -/
theorem exists_splitLeaf [Std.TransCmp cmp] {a : Arena κ} {C : Context κ 0 h} {id : NodeId}
    {d e : Entry κ} {l r : Multimap κ}
    (ha : a.Draws cmp (C.fill (.leaf id (d :: l ++ e :: r))))
    (hMid : (d :: l).length = (d :: l ++ e :: r).length / 2) :
    ∃ a', a.splitLeaf id = some (e.1, a.nodes.size, a') ∧
      a'.Divided cmp C (.leaf id (d :: l)) e.1 (.leaf a.nodes.size (e :: r)) := by
  obtain ⟨hLinked, hNodup, hLeaves⟩ := ha.leaf_ids
  have hHolds := ha.holds
  rw [C.records_fill, Shape.id_leaf] at hHolds
  obtain ⟨n, hn, hUnlinked⟩ := ha.exists_node
  rw [Shape.id_leaf] at hn
  obtain ⟨-, -, hParent, hKeys, hIds⟩ := Node.leaf_of_unlinked hUnlinked
  replace hKeys : n.keys = (d :: l ++ e :: r).map Prod.fst := hKeys
  have hNext : n.next = ((leavesOf C.after).map Page.id).head? := by
    have hLinks := hLinked.links_eq.1
    rw [links?, hn, Option.map_some, Option.some.injEq] at hLinks
    exact congrArg Prod.snd hLinks
  let new : Node κ := {
    keys := (e :: r).map Prod.fst, ids := (e :: r).map Prod.snd, next := n.next,
    previous := some id, parent := n.parent }
  have hNewUnlinked : new.unlinked = Shape.node 0 C.parent (.leaf a.nodes.size (e :: r)) :=
    congrArg (Node.mk _ _ _ none none · _) hParent
  obtain ⟨hb, hab⟩ := hHolds.alloc new
  obtain ⟨c, hRelink, hc, hcRoot, -, hcLinks⟩ := hb.exists_relink a.nodes.size n.next
    fun j hj => by
      obtain ⟨q, p, hqp⟩ := hLeaves j (List.mem_of_mem_head? (hNext ▸ hj))
      exact ⟨q, p, Multiset.mem_cons_of_mem hqp⟩
  rw [Shape.records_leaf, Multiset.add_comm (C.records id), Multiset.singleton_add,
    Multiset.cons_swap] at hc
  obtain ⟨b, hUpdate, hd, hdRoot, -, hdNode⟩ := hc.update
    (k := Shape.node 0 C.parent (.leaf id (d :: l)))
    (fun m => { m with
      keys := (d :: l).map Prod.fst, ids := (d :: l).map Prod.snd, next := some a.nodes.size })
    (fun m hm => by
      obtain ⟨hLeaf, -⟩ := Node.leaf_of_unlinked hm
      rw [Node.unlinked, if_pos hLeaf] at hm ⊢
      exact congrArg (fun m : Node κ => { m with
        keys := (d :: l).map Prod.fst, ids := (d :: l).map Prod.snd }) hm)
  have hdLinks : ∀ j, b.links? j = if id = j then (c.links? j).map fun k => (k.1, some a.nodes.size)
      else c.links? j := by
    intro j
    rw [links?, hdNode, links?]
    split <;> cases c.node? j <;> rfl
  refine ⟨b, ?_, ?_, ?_, ?_, ?_⟩
  · refine splitLeaf_eq hn hKeys hIds ?_ hRelink hUpdate
    rw [hKeys, List.length_map, hMid]
  · rw [hdRoot, hcRoot]
    exact ha.root.trans (C.id_fill rfl)
  · convert hd using 1
    simp only [Shape.records_leaf, Shape.id_leaf, hNewUnlinked, ← Multiset.singleton_add]
    rw [Multiset.add_comm, Multiset.add_assoc]
  · have hSize := hLinked.lt_size
    have hNew : (a.alloc new).2.links? a.nodes.size = some (some id, n.next) := by
      simp [links?, node?_alloc, new]
    rw [hNext] at hcLinks hNew
    have hNewLinked := hLinked.divide hNodup (fun hMem => (hSize _ hMem).ne rfl)
      (fun j hj => hab.links j (hSize j hj)) hNew hcLinks hdLinks
    simpa using hNewLinked
  · have hSorted := ha.sorted
    rw [C.pieces_fill] at hSorted
    exact Sorted.cut hSorted

end Arena

end IndexScan

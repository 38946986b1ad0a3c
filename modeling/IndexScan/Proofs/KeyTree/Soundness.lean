import IndexScan.Proofs.KeyTree.WellFormed

/-!
# Soundness of trees

Whatever has been added to a tree and removed from it, its arena is well-formed, and nothing that
follows its numbers fails: every number leads somewhere, and every search and every walk ends,
since no way from node to node is longer than there are nodes (`Draws.height_lt`,
`Draws.leaves_length_le`).
-/

namespace IndexScan

variable {κ : Type} {cmp : κ → κ → Ordering}

namespace Arena

/-- Everything that is asked of an arena has an answer. -/
structure Responds (cmp : κ → κ → Ordering) (fanout height : Nat) (a : Arena κ) : Prop where
  depth : a.depth = some (height + 1)
  leafFor : ∀ key, (a.leafFor cmp key).isSome
  get : ∀ key, (a.get cmp key).isSome
  contains : ∀ key, (a.contains cmp key).isSome
  insert : ∀ unique key id, (a.insert cmp fanout unique key id).isSome
  erase : ∀ key id?, (a.erase cmp key id?).isSome
  first : a.first.isSome
  last : a.last.isSome
  seek : ∀ below, (a.seek below).isSome
  forwardFrom : ∀ leaf ∈ a.level height, ∀ i, (a.forwardFrom leaf i).isSome
  backwardFrom : ∀ leaf ∈ a.level height, (a.backwardFrom leaf).isSome
  next : ∀ p, (a.pair p).isSome → (a.next p).isSome ∧ (a.walk a.next (some p)).isSome
  previous : ∀ p, (a.pair p).isSome → (a.previous p).isSome ∧ (a.walk a.previous (some p)).isSome

variable {a : Arena κ} {P : κ → Prop} {m : Multimap κ} {fanout h : Nat} {T : Shape κ h}

theorem Draws.depthWithin_eq {g : Nat} {C : Context κ g h} {x : Shape κ g}
    (hx : Shape.Fits fanout g x) (hd : a.Draws cmp (C.fill x)) {nodes : Nat} (hNodes : g < nodes) :
    a.depthWithin nodes (Shape.id g x) = some (g + 1) := by
  obtain ⟨nodes, rfl⟩ := Nat.exists_eq_add_one.2 (Nat.zero_lt_of_lt hNodes)
  induction g generalizing nodes with
  | zero =>
    obtain ⟨n, hn, hLeaf⟩ := hd.isLeaf hx
    rw [depthWithin, hn]
    simp [hLeaf.isLeaf]
  | succ g ih =>
    obtain ⟨n, hn, hBranch⟩ := hd.isBranch hx
    obtain ⟨c, cs, hChildren⟩ := List.exists_cons_of_length_eq_add_one hx.1.1
    obtain ⟨D, hFill, -, hFits, -⟩ := exists_child (C := C) hx (c := c) (by simp [hChildren])
    have hFirst : n.children = (Fork.children x).map (Shape.id g) := by
      have := hd.children_branch
      rwa [children, hn] at this
    replace hNodes := Nat.lt_of_succ_lt_succ hNodes
    obtain ⟨nodes, rfl⟩ := Nat.exists_eq_add_one.2 (Nat.zero_lt_of_lt hNodes)
    rw [depthWithin, hn]
    simp [hBranch.isLeaf, hFirst, hChildren, ih hFits (hFill ▸ hd) nodes hNodes]

theorem Draws.depth_eq (hT : Shape.Fits fanout h T) (hd : a.Draws cmp T) :
    a.depth = some (h + 1) := by
  rw [depth, hd.root]
  exact hd.depthWithin_eq (C := .root) hT (hd.height_lt hT)

/-- The leaves of the last level are those of the chain. -/
theorem Draws.exists_page (hT : Shape.Fits fanout h T) (hd : a.Draws cmp T) {leaf : NodeId}
    (hLeaf : leaf ∈ a.level h) :
    ∃ l p r, leavesOf (Shape.pieces h T) = l ++ p :: r ∧ p.id = leaf := by
  rw [level, hd.root, Draws.below_leaves (C := .root) hT hd] at hLeaf
  obtain ⟨p, hp, rfl⟩ := List.mem_map.1 hLeaf
  obtain ⟨l, r, hSplit⟩ := List.append_of_mem hp
  exact ⟨l, p, r, hSplit, rfl⟩

/-- A position on an identity is in the list. -/
theorem Draws.exists_located (hT : Shape.Fits fanout h T) (hd : a.Draws cmp T) {p : Position}
    (hp : (a.pair p).isSome) :
    ∃ l x r, located (leavesOf (Shape.pieces h T)) = l ++ x :: r ∧ x.1 = p := by
  cases hn : a.node? p.leaf with
  | none => simp [pair, hn] at hp
  | some n =>
    obtain ⟨g, C, x, rfl, hx, hId⟩ := hd.part_of_node hT hn
    cases g with
    | succ g =>
      obtain ⟨n', hn', hBranch⟩ := hd.isBranch hx
      rw [hId, hn] at hn'
      obtain rfl := Option.some.inj hn'
      simp [pair, hn, hBranch.ids] at hp
    | zero =>
      let q : Page κ := x
      have hLeaves : leavesOf (Shape.pieces h (C.fill x))
          = leavesOf C.before ++ q :: leavesOf C.after := by
        rw [C.pieces_fill, leavesOf_append, leavesOf_append]
        rfl
      obtain ⟨n', hn', hLists, -, -⟩ := hd.chains.leaf _ _ _ hLeaves
      rw [show q.id = p.leaf from hId, hn] at hn'
      obtain rfl := Option.some.inj hn'
      obtain ⟨pair, hPair⟩ := Option.isSome_iff_exists.1 hp
      simp only [Arena.pair, hn, hLists.keys, hLists.ids, List.getElem?_map, Option.bind_eq_bind,
        Option.bind_some, Option.bind_eq_some_iff, Option.map_eq_some_iff] at hPair
      obtain ⟨-, ⟨e, he, rfl⟩, -, ⟨e', he', rfl⟩, id, hid, -⟩ := hPair
      obtain rfl := Option.some.inj (he.symm.trans he')
      have hMem : (p, e.1, id) ∈ located (leavesOf (Shape.pieces h (C.fill x))) := by
        refine List.mem_flatMap.2 ⟨q, by simp [hLeaves], ?_⟩
        refine List.mem_flatMap.2 ⟨(e, p.key), List.mem_zipIdx_iff_getElem?.2 he, ?_⟩
        refine List.mem_map.2 ⟨(id, p.number), List.mem_zipIdx_iff_getElem?.2 hid, ?_⟩
        rw [show q.id = p.leaf from hId]
      obtain ⟨l, r, hSplit⟩ := List.append_of_mem hMem
      exact ⟨l, _, r, hSplit, rfl⟩

theorem Draws.responds [Std.TransCmp cmp] (hFanout : minFanout ≤ fanout)
    (hT : Shape.Fits fanout h T) (hd : a.Draws cmp T) : a.Responds cmp fanout h := by
  have hm : a.Represents cmp fanout (fun _ => True) (entriesOf (Shape.pieces h T)) :=
    ⟨h, T, hd, hT, rfl, fun _ _ => trivial⟩
  have hx : a.Traverses cmp (fun _ => True) _ := hd.traverses hT fun _ _ => trivial
  have hFilled := filled_of_fitsBelow hT.1
  refine ⟨hd.depth_eq hT, fun key => ?_, fun key => ?_, fun key => ?_, fun unique key id => ?_,
    fun key id? => ?_, ?_, ?_, fun below => ?_, fun leaf hLeaf i => ?_, fun leaf hLeaf => ?_,
    fun p hp => ?_, fun p hp => ?_⟩
  · obtain ⟨_, _, leaf, _, _, hAt⟩ := hm.exists_at key
    simp [hAt.leafFor]
  · simp [hm.get_eq key]
  · simp [hm.contains_eq key]
  · cases hOld : unique && Multimap.contains cmp key (entriesOf (Shape.pieces h T)) with
    | false =>
      obtain ⟨a', hInsert, -⟩ := hm.exists_insert hFanout hOld trivial id
      simp [hInsert]
    | true =>
      rw [Bool.and_eq_true] at hOld
      simp [hOld.1, hm.insert_duplicate hOld.2]
  · obtain ⟨k, a', hErase, -⟩ := hm.exists_erase key id?
    simp [hErase]
  · simp [hx.first]
  · simp [hx.last]
  · obtain ⟨before, after, p, hPieces, -, -, hDescend⟩ := hd.exists_descent hT below
    have hLeaves : leavesOf (Shape.pieces h T) = leavesOf before ++ p :: leavesOf after := by
      rw [hPieces, leavesOf_append, leavesOf_page]
    obtain ⟨n, hn, -⟩ := hd.chains.leaf _ _ _ hLeaves
    have hForward := hd.chains.forwardFrom_eq hFilled hLeaves (n.keys.takeWhile below).length
    simp [seek, hDescend _ (follows_route below), hn, hForward]
  · obtain ⟨l, p, r, hSplit, rfl⟩ := hd.exists_page hT hLeaf
    simp [hd.chains.forwardFrom_eq hFilled hSplit i]
  · obtain ⟨l, p, r, hSplit, rfl⟩ := hd.exists_page hT hLeaf
    simp [hd.chains.backwardFrom_eq hFilled hSplit]
  · obtain ⟨l, x, r, hSplit, rfl⟩ := hd.exists_located hT hp
    have hWalk := hx.walk_next (l := l) (r := x :: r) hSplit
    rw [List.head?_cons, Option.map_some] at hWalk
    simp [hx.next l x r hSplit, hWalk]
  · obtain ⟨l, x, r, hSplit, rfl⟩ := hd.exists_located hT hp
    have hWalk := hx.walk_previous (l := l ++ [x]) (r := r) (by simp [hSplit])
    rw [List.getLast?_concat, Option.map_some] at hWalk
    simp [hx.previous l x r hSplit, hWalk]

end Arena

theorem KeyTree.fanout_answer (t : KeyTree κ cmp) (r : Request κ) :
    (t.answer r).2.fanout = t.fanout := by
  cases r with
  | add key id =>
    rw [answer, insert]
    rcases (t.arena.insert cmp t.fanout t.unique key id).getD (.ok (), t.arena)
      with ⟨⟨⟩ | ⟨⟨⟩⟩, a⟩ <;> rfl
  | _ => rfl

theorem KeyTree.fanout_answers (rs : List (Request κ)) (t : KeyTree κ cmp) :
    (answers KeyTree.answer t rs).2.fanout = t.fanout := by
  induction rs generalizing t with
  | nil => rfl
  | cons r rs ih => exact (ih (t.answer r).2).trans (t.fanout_answer r)

/-- After any requests the arena of a tree is well-formed, and everything that is asked of it has
an answer. -/
theorem KeyTree.arena_wellFormed [Std.TransCmp cmp] (fanout : Nat) (unique : Bool)
    (rs : List (Request κ)) : ∃ height,
    (answers KeyTree.answer (empty fanout unique : KeyTree κ cmp) rs).2.arena.WellFormed cmp
      (max fanout minFanout) height ∧
    (answers KeyTree.answer (empty fanout unique : KeyTree κ cmp) rs).2.arena.Responds cmp
      (max fanout minFanout) height := by
  obtain ⟨-, hRefines⟩ := (refines_empty cmp (fun _ => True) fanout unique).answers_eq
    (fun _ => trivial) rs
  have hFanout := fanout_answers rs (empty fanout unique : KeyTree κ cmp)
  obtain ⟨height, T, hd, hT, -⟩ := hRefines.arena
  rw [hFanout] at hT
  exact ⟨height, hd.wellFormed hT, hd.responds (Nat.le_max_right ..) hT⟩

/-- A tree over numbers after its root leaf has been cut in two and its first leaf emptied. -/
theorem KeyTree.arena_wellFormed_of_cut_root : ∃ height,
    (answers KeyTree.answer (empty 4 false : KeyTree Nat compare)
      [.add 1 1, .add 2 2, .add 3 3, .add 4 4, .remove 1 none, .remove 2 none]).2.arena.WellFormed
        compare 4 height ∧
    (answers KeyTree.answer (empty 4 false : KeyTree Nat compare)
      [.add 1 1, .add 2 2, .add 3 3, .add 4 4, .remove 1 none, .remove 2 none]).2.arena.Responds
        compare 4 height :=
  arena_wellFormed 4 false [.add 1 1, .add 2 2, .add 3 3, .add 4 4, .remove 1 none, .remove 2 none]

end IndexScan

import IndexScan.Proofs.KeyTree.Refinement
import Mathlib.Data.Multiset.Bind

/-!
# Well-formed arenas

`WellFormed` says what the nodes of an arena have to be like without any mention of shapes: it
speaks of numbers, keys, children and links only, with levels that are read off from the children.
An arena that draws a shape which fits is well-formed, because every node of it is the top of a
part of the shape, in a context.
-/

namespace IndexScan

variable {κ : Type} {cmp : κ → κ → Ordering}

namespace Arena

/-- The children of a node; none for a number that leads nowhere. -/
def children (a : Arena κ) (id : NodeId) : List NodeId := (a.node? id).elim [] Node.children

/-- The nodes a number of levels below others, from left to right. -/
def below (a : Arena κ) : Nat → List NodeId → List NodeId
  | 0, ids => ids
  | d + 1, ids => a.below d (ids.flatMap a.children)

/-- The nodes of a level, counted from the root. -/
def level (a : Arena κ) (d : Nat) : List NodeId := a.below d [a.root]

/-- The second node is the first one or below it. -/
inductive Above (a : Arena κ) : NodeId → NodeId → Prop
  | refl (id : NodeId) : Above a id id
  | step {id child other : NodeId} : child ∈ a.children id → Above a child other → Above a id other

/-- A branch of a tree of the given fan-out. -/
structure IsBranch (fanout : Nat) (n : Node κ) : Prop where
  isLeaf : n.isLeaf = false
  ids : n.ids = []
  keys_ne_nil : n.keys ≠ []
  keys_lt : n.keys.length < fanout
  children : n.children.length = n.keys.length + 1
  unlinked : n.previous = none ∧ n.next = none

/-- A leaf of a tree of the given fan-out. -/
structure IsLeaf (fanout : Nat) (n : Node κ) : Prop where
  isLeaf : n.isLeaf = true
  children : n.children = []
  keys_lt : n.keys.length < fanout
  ids : n.ids.length = n.keys.length
  ids_ne_nil : ∀ ids ∈ n.ids, ids ≠ []

/-- The arena is a tree with a chain of leaves. -/
structure WellFormed (cmp : κ → κ → Ordering) (fanout height : Nat) (a : Arena κ) : Prop where
  /-- Going down level by level, one meets every node once. -/
  visits : ((List.range (height + 1)).flatMap a.level).Perm (List.range a.nodes.size)
  branch : ∀ d < height, ∀ id ∈ a.level d, ∃ n, a.node? id = some n ∧ IsBranch fanout n
  leaf : ∀ id ∈ a.level height, ∃ n, a.node? id = some n ∧ IsLeaf fanout n
  ascending : ∀ id n, a.node? id = some n → n.keys.Pairwise fun k l => cmp k l = .lt
  /-- What is below a child is not below the separator before it, but below the one after it. -/
  fences : ∀ id n, a.node? id = some n → ∀ i child, n.children[i]? = some child →
    ∀ other m, a.Above child other → a.node? other = some m → ∀ k ∈ m.keys,
      (∀ s, 0 < i → n.keys[i - 1]? = some s → cmp k s ≠ .lt) ∧
        ∀ s, n.keys[i]? = some s → cmp k s = .lt
  parent : ∀ id, ∀ child ∈ a.children id, (a.node? child).map Node.parent = some (some id)
  root : (a.node? a.root).map Node.parent = some none
  /-- Every leaf is linked to the one before and the one after it. -/
  chain : ∀ l id r, a.level height = l ++ id :: r → a.links? id = some (l.getLast?, r.head?)

/-! ### Levels -/

theorem below_append (a : Arena κ) (d : Nat) (ids ids' : List NodeId) :
    a.below d (ids ++ ids') = a.below d ids ++ a.below d ids' := by
  induction d generalizing ids ids' with
  | zero => rfl
  | succ d ih => rw [below, List.flatMap_append, ih, below, below]

theorem below_flatMap (a : Arena κ) (d : Nat) (ids : List NodeId) :
    a.below d ids = ids.flatMap fun id => a.below d [id] := by
  induction ids with
  | nil =>
    induction d with
    | zero => rfl
    | succ d ih => exact ih
  | cons id ids ih =>
    rw [← List.singleton_append, below_append, ih, List.flatMap_append, List.flatMap_singleton]

end Arena

/-! ### Parts of a shape -/

section

variable {a : Arena κ} {fanout g h : Nat} {T : Shape κ h}

theorem Arena.Draws.children_branch {C : Context κ (g + 1) h} {x : Shape κ (g + 1)}
    (hd : a.Draws cmp (C.fill x)) :
    a.children (Shape.id (g + 1) x) = (Fork.children x).map (Shape.id g) := by
  obtain ⟨n, hn, hUnlinked⟩ := hd.exists_node
  rw [Arena.children, hn, Node.eq_of_unlinked hUnlinked]
  rfl

theorem Arena.Draws.children_leaf {C : Context κ 0 h} {x : Shape κ 0}
    (hd : a.Draws cmp (C.fill x)) : a.children (Shape.id 0 x) = [] := by
  obtain ⟨n, hn, hUnlinked⟩ := hd.exists_node
  rw [Arena.children, hn]
  exact (Node.leaf_of_unlinked hUnlinked).2.1

/-- The context of a child of a branch. -/
def Context.child (C : Context κ (g + 1) h) (f : Fork κ (Shape κ g)) (i : Nat)
    (hi : i < f.children.length) (hLength : f.children.length = f.separators.length + 1) :
    Context κ g h := .under (f.frame i hi hLength) C

theorem Context.fill_child (C : Context κ (g + 1) h) (f : Fork κ (Shape κ g)) (i : Nat)
    (hi : i < f.children.length) (hLength : f.children.length = f.separators.length + 1) :
    (C.child f i hi hLength).fill f.children[i] = C.fill f :=
  congrArg C.fill (f.frame_fork i hi hLength)

/-- Every child of a part is a part. -/
theorem exists_child {C : Context κ (g + 1) h} {x : Shape κ (g + 1)}
    (hx : Shape.Fits fanout (g + 1) x) {c : Shape κ g} (hc : c ∈ Fork.children x) :
    ∃ D : Context κ g h, D.fill c = C.fill x ∧ D.parent = some (Shape.id (g + 1) x) ∧
      Shape.Fits fanout g c ∧ (marksOf (Shape.pieces g c)).Sublist
        (marksOf (Shape.pieces (g + 1) x)) := by
  obtain ⟨i, hi, rfl⟩ := List.mem_iff_getElem.1 hc
  refine ⟨C.child x i hi hx.1.1, C.fill_child x i hi hx.1.1, rfl, hx.1.2.2 _ hc, ?_⟩
  have hFork := Fork.frame_fork x i hi hx.1.1
  conv_rhs => rw [← hFork, Frame.pieces_one, marksOf_append, marksOf_append]
  exact (List.sublist_append_left _ _).trans (List.sublist_append_right _ _)

theorem Arena.Draws.below_succ {C : Context κ (g + 1) h} {x : Shape κ (g + 1)}
    (hd : a.Draws cmp (C.fill x)) (d : Nat) : a.below (d + 1) [Shape.id (g + 1) x]
      = (Fork.children x).flatMap fun c => a.below d [Shape.id g c] := by
  rw [Arena.below, List.flatMap_singleton, hd.children_branch, Arena.below_flatMap,
    List.flatMap_map]

/-- The level at the height of a part consists of its leaves. -/
theorem Arena.Draws.below_leaves {C : Context κ g h} {x : Shape κ g}
    (hx : Shape.Fits fanout g x) (hd : a.Draws cmp (C.fill x)) :
    a.below g [Shape.id g x] = (leavesOf (Shape.pieces g x)).map Page.id := by
  induction g with
  | zero => rfl
  | succ g ih =>
    rw [hd.below_succ, Shape.pieces, leavesOf_weave, List.map_flatMap, List.flatMap_map]
    refine List.flatMap_congr fun c hc => ?_
    obtain ⟨D, hFill, -, hFits, -⟩ := exists_child (C := C) hx hc
    exact ih hFits (hFill ▸ hd)

/-- The levels of a part consist of the numbers of its nodes. -/
theorem Arena.Draws.below_visits {C : Context κ g h} {x : Shape κ g}
    (hx : Shape.Fits fanout g x) (hd : a.Draws cmp (C.fill x)) (p : Option NodeId) :
    ((List.range (g + 1)).flatMap fun d => a.below d [Shape.id g x] : Multiset NodeId)
      = (Shape.records g p x).map Prod.fst := by
  induction g generalizing p with
  | zero => rfl
  | succ g ih =>
    have hSum : ∀ cs : List (Shape κ g), (∀ c ∈ cs, c ∈ Fork.children x) →
        (cs.flatMap fun c => (List.range (g + 1)).flatMap fun d => a.below d [Shape.id g c] :
          Multiset NodeId)
          = ((cs.map (Shape.records g (some (Shape.id (g + 1) x)))).sum).map Prod.fst := by
      intro cs hcs
      induction cs with
      | nil => rfl
      | cons c cs ihcs =>
        obtain ⟨hc, hcs⟩ := List.forall_mem_cons.1 hcs
        obtain ⟨D, hFill, -, hFits, -⟩ := exists_child (C := C) hx hc
        rw [List.flatMap_cons, ← Multiset.coe_add, ihcs hcs, List.map_cons, List.sum_cons,
          Multiset.map_add, ih hFits (hFill ▸ hd)]
    have hSwap : ((List.range (g + 1)).flatMap fun d => a.below (d + 1) [Shape.id (g + 1) x] :
        Multiset NodeId) = ((Fork.children x).flatMap fun c =>
          (List.range (g + 1)).flatMap fun d => a.below d [Shape.id g c] : List NodeId) := by
      simp only [hd.below_succ, ← Multiset.coe_bind]
      exact Multiset.bind_bind _ _
    rw [List.range_succ_eq_map, List.flatMap_cons, List.flatMap_map, ← Multiset.coe_add, hSwap,
      hSum _ fun c hc => hc, Arena.below, Multiset.coe_singleton, Multiset.singleton_add,
      Shape.records, Multiset.map_cons]
    rfl

/-- What a number below a part leads to is a part. -/
theorem Arena.Draws.exists_part {k : Nat} : ∀ (d : Nat) {C : Context κ (k + d) h}
    {x : Shape κ (k + d)} {id : NodeId}, Shape.Fits fanout (k + d) x → a.Draws cmp (C.fill x) →
    id ∈ a.below d [Shape.id (k + d) x] → ∃ (D : Context κ k h) (y : Shape κ k),
      D.fill y = C.fill x ∧ Shape.Fits fanout k y ∧ Shape.id k y = id
  | 0, C, x, id, hx, _, hid => ⟨C, x, rfl, hx, (List.mem_singleton.1 hid).symm⟩
  | d + 1, C, x, id, hx, hd, hid => by
    have hDown : a.below (d + 1) [Shape.id (k + (d + 1)) x] = _ := hd.below_succ (g := k + d) d
    rw [hDown, List.mem_flatMap] at hid
    obtain ⟨c, hc, hid⟩ := hid
    obtain ⟨D, hFill, -, hFits, -⟩ := exists_child (g := k + d) (C := C) hx hc
    obtain ⟨E, y, hE, hy, hId⟩ := exists_part d hFits (hFill ▸ hd) hid
    exact ⟨E, y, hE.trans hFill, hy, hId⟩

/-- What is below a part is a part of it. -/
theorem Arena.Draws.exists_part_of_above {id other : NodeId} (hAbove : a.Above id other) :
    ∀ {g : Nat} {C : Context κ g h} {x : Shape κ g}, Shape.Fits fanout g x →
      a.Draws cmp (C.fill x) → Shape.id g x = id → ∃ (k : Nat) (D : Context κ k h) (y : Shape κ k),
        D.fill y = C.fill x ∧ Shape.Fits fanout k y ∧ Shape.id k y = other ∧
          (marksOf (Shape.pieces k y)).Sublist (marksOf (Shape.pieces g x)) := by
  induction hAbove with
  | refl => exact fun {g C x} hx _ hid => ⟨g, C, x, rfl, hx, hid, List.Sublist.refl _⟩
  | step hChild _ ih =>
    rintro (_ | g) C x hx hd rfl
    · rw [hd.children_leaf] at hChild
      cases hChild
    · rw [hd.children_branch, List.mem_map] at hChild
      obtain ⟨c, hc, rfl⟩ := hChild
      obtain ⟨D, hFill, -, hFits, hChildSub⟩ := exists_child (C := C) hx hc
      obtain ⟨k, E, y, hE, hy, hId, hSub⟩ := ih hFits (hFill ▸ hd) rfl
      exact ⟨k, E, y, hE.trans hFill, hy, hId, hSub.trans hChildSub⟩

/-- The keys of a node stand for marks of the part that it is on top of. -/
theorem sublist_marks (cmp : κ → κ → Ordering) {x : Shape κ g} (hx : Shape.Fits fanout g x)
    (p : Option NodeId) :
    ∃ f : κ → Mark κ, (∀ k l, (f k).Before cmp (f l) → cmp k l = .lt) ∧ (∀ k, (f k).value = k) ∧
      ((Shape.node g p x).keys.map f).Sublist (marksOf (Shape.pieces g x)) := by
  cases g with
  | zero =>
    refine ⟨.key, fun k l h => h, fun k => rfl, ?_⟩
    simp [Shape.node, Shape.pieces, marksOf, Piece.marks, Function.comp_def]
  | succ g =>
    have hWeave : ∀ (pss : List (List (Piece κ))) (ss : List κ), pss.length = ss.length + 1 →
        (ss.map Mark.separator).Sublist (marksOf (weave pss ss)) := by
      intro pss ss
      induction ss generalizing pss with
      | nil => exact fun _ => List.nil_sublist _
      | cons s ss ih =>
        intro hLength
        obtain ⟨ps, pss, rfl⟩ := List.exists_cons_of_length_eq_add_one hLength
        rw [weave, marksOf_append, marksOf_separator, List.map_cons]
        exact ((ih pss (by simpa using hLength)).cons_cons _).trans (List.sublist_append_right _ _)
    refine ⟨.separator, fun k l h => h, fun k => rfl, ?_⟩
    exact hWeave _ _ ((List.length_map _).trans hx.1.1)

theorem Arena.Draws.sorted_part {C : Context κ g h} {x : Shape κ g} (hd : a.Draws cmp (C.fill x)) :
    Sorted cmp (Shape.pieces g x) := by
  have hSorted := hd.sorted
  rw [C.pieces_fill, Sorted, marksOf_append, marksOf_append] at hSorted
  exact (List.pairwise_append.1 (List.pairwise_append.1 hSorted).2.1).1

theorem Arena.Draws.node_keys {C : Context κ g h} {x : Shape κ g} (hd : a.Draws cmp (C.fill x)) :
    ∃ n, a.node? (Shape.id g x) = some n ∧ n.keys = (Shape.node g C.parent x).keys := by
  obtain ⟨n, hn, hUnlinked⟩ := hd.exists_node
  refine ⟨n, hn, ?_⟩
  rw [← hUnlinked, Node.keys_unlinked]

/-- The keys of a node ascend. -/
theorem Arena.Draws.ascending_part {C : Context κ g h} {x : Shape κ g}
    (hx : Shape.Fits fanout g x) (hd : a.Draws cmp (C.fill x)) :
    (Shape.node g C.parent x).keys.Pairwise fun k l => cmp k l = .lt := by
  obtain ⟨f, hBefore, -, hSub⟩ := sublist_marks cmp hx C.parent
  have hPairwise := List.pairwise_map.1 (hd.sorted_part.sublist hSub)
  exact hPairwise.imp fun h => hBefore _ _ h

/-- The fences of a child of a branch. -/
theorem fences_of_sorted [Std.OrientedCmp cmp] {f : Fork κ (Shape κ g)}
    (hSorted : Sorted cmp (Shape.pieces (g + 1) f)) {i : Nat} (hi : i < f.children.length)
    (hLength : f.children.length = f.separators.length + 1) {m : Mark κ}
    (hm : m ∈ marksOf (Shape.pieces g f.children[i])) :
    (∀ s, 0 < i → f.separators[i - 1]? = some s → cmp m.value s ≠ .lt) ∧
      ∀ s, f.separators[i]? = some s → cmp m.value s = .lt := by
  have hFork := f.frame_fork i hi hLength
  rw [← hFork, Frame.pieces_one, Sorted, marksOf_append, marksOf_append] at hSorted
  obtain ⟨-, hInner, hBefore⟩ := List.pairwise_append.1 hSorted
  obtain ⟨-, -, hAfter⟩ := List.pairwise_append.1 hInner
  refine ⟨fun s hPos hs => ?_, fun s hs => ?_⟩
  · have hMem : s ∈ (f.frame i hi hLength).leftSeparators := by
      refine List.mem_of_getElem? (i := i - 1) ?_
      rw [Fork.frame, List.getElem?_take_of_lt (by omega)]
      exact hs
    have := hBefore _ (separator_mem_weave (by simp [(f.frame i hi hLength).left_length]) hMem) m
      (List.mem_append_left _ hm)
    cases m with
    | key k => exact this
    | separator t => simpa [Mark.value] using Std.OrientedCmp.not_lt_of_lt this
  · have hMem : s ∈ (f.frame i hi hLength).rightSeparators := by
      refine List.mem_of_getElem? (i := 0) ?_
      rw [Fork.frame, List.getElem?_drop]
      exact hs
    have := hAfter m hm _
      (separator_mem_weaveAfter (by simp [(f.frame i hi hLength).right_length]) hMem)
    cases m with
    | key k => exact this
    | separator t => exact this

end

namespace Arena

variable {a : Arena κ} {fanout h : Nat} {T : Shape κ h}

theorem Draws.level_part (hT : Shape.Fits fanout h T) (hd : a.Draws cmp T) {d k : Nat}
    (hk : h = k + d) {id : NodeId} (hid : id ∈ a.level d) : ∃ (C : Context κ k h) (x : Shape κ k),
      C.fill x = T ∧ Shape.Fits fanout k x ∧ Shape.id k x = id := by
  subst hk
  rw [level, hd.root] at hid
  exact hd.exists_part d (C := .root) hT hid

theorem Draws.visits (hT : Shape.Fits fanout h T) (hd : a.Draws cmp T) :
    ((List.range (h + 1)).flatMap a.level).Perm (List.range a.nodes.size) := by
  refine Multiset.coe_eq_coe.1 ?_
  have hLevel : a.level = fun d => a.below d [Shape.id h T] := by
    funext d
    rw [level, hd.root]
  rw [hLevel, Draws.below_visits (C := .root) hT hd none, hd.holds.numbers]
  rfl

/-- Every node of the arena is on top of a part. -/
theorem Draws.part_of_node (hT : Shape.Fits fanout h T) (hd : a.Draws cmp T) {id : NodeId}
    {n : Node κ} (hn : a.node? id = some n) : ∃ (k : Nat) (C : Context κ k h) (x : Shape κ k),
      C.fill x = T ∧ Shape.Fits fanout k x ∧ Shape.id k x = id := by
  have hSize : id < a.nodes.size := (Array.getElem?_eq_some_iff.1 hn).1
  have hMem := (hd.visits hT).mem_iff.2 (List.mem_range.2 hSize)
  obtain ⟨d, hRange, hid⟩ := List.mem_flatMap.1 hMem
  obtain ⟨k, hk⟩ := Nat.exists_eq_add_of_le' (Nat.le_of_lt_succ (List.mem_range.1 hRange))
  obtain ⟨C, x, hFill, hx, hId⟩ := hd.level_part hT hk hid
  exact ⟨k, C, x, hFill, hx, hId⟩

theorem Draws.isBranch {g : Nat} {C : Context κ (g + 1) h} {x : Shape κ (g + 1)}
    (hx : Shape.Fits fanout (g + 1) x) (hd : a.Draws cmp (C.fill x)) :
    ∃ n, a.node? (Shape.id (g + 1) x) = some n ∧ IsBranch fanout n := by
  obtain ⟨n, hn, hUnlinked⟩ := hd.exists_node
  refine ⟨n, hn, ?_⟩
  rw [Node.eq_of_unlinked hUnlinked]
  exact ⟨rfl, rfl, hx.1.2.1, hx.2, (List.length_map _).trans hx.1.1, rfl, rfl⟩

theorem Draws.isLeaf {C : Context κ 0 h} {x : Shape κ 0}
    (hx : Shape.Fits fanout 0 x) (hd : a.Draws cmp (C.fill x)) :
    ∃ n, a.node? (Shape.id 0 x) = some n ∧ IsLeaf fanout n := by
  obtain ⟨n, hn, hUnlinked⟩ := hd.exists_node
  obtain ⟨hLeaf, hChildren, -, hKeys, hIds⟩ := Node.leaf_of_unlinked hUnlinked
  refine ⟨n, hn, hLeaf, hChildren, ?_, ?_, ?_⟩
  · rw [hKeys, List.length_map]
    exact hx.2
  · rw [hKeys, hIds, List.length_map, List.length_map]
  · intro ids hMem
    rw [hIds] at hMem
    obtain ⟨e, he, rfl⟩ := List.mem_map.1 hMem
    exact hx.1 e he

theorem Draws.ascending (hT : Shape.Fits fanout h T) (hd : a.Draws cmp T) {id : NodeId}
    {n : Node κ} (hn : a.node? id = some n) : n.keys.Pairwise fun k l => cmp k l = .lt := by
  obtain ⟨k, C, x, rfl, hx, rfl⟩ := hd.part_of_node hT hn
  obtain ⟨n', hn', hKeys⟩ := hd.node_keys
  obtain rfl := Option.some.inj (hn.symm.trans hn')
  rw [hKeys]
  exact hd.ascending_part hx

/-- A key below a child is between the separators of the child. -/
theorem Draws.fences [Std.OrientedCmp cmp] (hT : Shape.Fits fanout h T) (hd : a.Draws cmp T)
    {id child other : NodeId} {n m : Node κ} {i : Nat} (hn : a.node? id = some n)
    (hChild : n.children[i]? = some child) (hAbove : a.Above child other)
    (hm : a.node? other = some m) {k : κ} (hk : k ∈ m.keys) :
    (∀ s, 0 < i → n.keys[i - 1]? = some s → cmp k s ≠ .lt) ∧
      ∀ s, n.keys[i]? = some s → cmp k s = .lt := by
  obtain ⟨g, C, x, rfl, hx, rfl⟩ := hd.part_of_node hT hn
  obtain ⟨n', hn', hUnlinked⟩ := hd.exists_node
  obtain rfl := Option.some.inj (hn.symm.trans hn')
  cases g with
  | zero => simp [(Node.leaf_of_unlinked hUnlinked).2.1] at hChild
  | succ g =>
    rw [Node.eq_of_unlinked hUnlinked] at hChild ⊢
    rw [Shape.node, List.getElem?_map, Option.map_eq_some_iff] at hChild
    obtain ⟨c, hc, rfl⟩ := hChild
    obtain ⟨hi, rfl⟩ := List.getElem?_eq_some_iff.1 hc
    have hFill := C.fill_child x i hi hx.1.1
    obtain ⟨g', D, y, hInner, hy, rfl, hSub⟩ := exists_part_of_above hAbove
      (hx.1.2.2 _ (List.getElem_mem hi)) (C := C.child x i hi hx.1.1) (hFill ▸ hd) rfl
    obtain ⟨m', hm', hKeys⟩ := Draws.node_keys (C := D) (x := y) (hInner ▸ hFill ▸ hd)
    obtain rfl := Option.some.inj (hm.symm.trans hm')
    -- The key is a mark of the node `y`, hence of the child that `y` is below.
    obtain ⟨f, -, hValue, hMarks⟩ := sublist_marks cmp hy D.parent
    have hMark : f k ∈ marksOf (Shape.pieces g (Fork.children x)[i]) :=
      hSub.mem (hMarks.mem (List.mem_map_of_mem (hKeys ▸ hk)))
    have hFences := fences_of_sorted hd.sorted_part hi hx.1.1 hMark
    rwa [hValue] at hFences

theorem Draws.parent_of_child (hT : Shape.Fits fanout h T) (hd : a.Draws cmp T)
    {id child : NodeId} (hChild : child ∈ a.children id) :
    (a.node? child).map Node.parent = some (some id) := by
  cases hn : a.node? id with
  | none =>
    rw [children, hn] at hChild
    cases hChild
  | some n =>
    obtain ⟨g, C, x, rfl, hx, rfl⟩ := hd.part_of_node hT hn
    cases g with
    | zero =>
      rw [hd.children_leaf] at hChild
      cases hChild
    | succ g =>
      rw [hd.children_branch, List.mem_map] at hChild
      obtain ⟨c, hc, rfl⟩ := hChild
      obtain ⟨D, hFill, hParent, -⟩ := exists_child (C := C) hx hc
      rw [← hFill] at hd
      obtain ⟨m, hm, hUnlinked⟩ := hd.exists_node
      rw [hm, ← hParent, ← Shape.node_parent g D.parent c, ← hUnlinked, Node.parent_unlinked]
      rfl

theorem Draws.wellFormed [Std.OrientedCmp cmp] (hT : Shape.Fits fanout h T)
    (hd : a.Draws cmp T) : a.WellFormed cmp fanout h where
  visits := hd.visits hT
  branch d hdh id hid := by
    obtain ⟨k, hk⟩ := Nat.exists_eq_add_of_lt hdh
    obtain ⟨C, x, rfl, hx, rfl⟩ := hd.level_part hT (k := k + 1) (by omega) hid
    exact hd.isBranch hx
  leaf id hid := by
    obtain ⟨C, x, rfl, hx, rfl⟩ := hd.level_part hT (Nat.zero_add h).symm hid
    exact hd.isLeaf hx
  ascending _ _ hn := hd.ascending hT hn
  fences _ _ hn _ _ hChild _ _ hAbove hm _ hk := hd.fences hT hn hChild hAbove hm hk
  parent _ _ hChild := hd.parent_of_child hT hChild
  root := by
    obtain ⟨n, hn, hUnlinked⟩ := hd.exists_node (C := .root)
    rw [hd.root, hn, Option.map_some, Option.some.injEq]
    rw [← Node.parent_unlinked, hUnlinked, Shape.node_parent]
    rfl
  chain l id r hLevel := by
    rw [level, hd.root, Draws.below_leaves (C := .root) hT hd] at hLevel
    have hLinked := hd.linked
    rw [hLevel] at hLinked
    rw [hLinked.links_eq.1, Option.or_none]

end Arena

end IndexScan

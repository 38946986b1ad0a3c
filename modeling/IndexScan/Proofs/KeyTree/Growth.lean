import IndexScan.Proofs.KeyTree.Credit
import IndexScan.Settings

/-!
# Growing

A node that has been cut in two is completed by attaching the new half to the branch above, or by
a new root above both.  A branch that has become too large by that is the next node to be divided,
in the context that is one frame shorter, so the induction for `settle` is on the context.  What is
true of the new shape because of the old one is `Regrown`.
-/

namespace IndexScan

variable {κ : Type} {cmp : κ → κ → Ordering} {g h : Nat}

/-! ### The place of a separator -/

theorem separator_mem_weave : ∀ {pss : List (List (Piece κ))} {ss : List κ} {s : κ},
    pss.length = ss.length → s ∈ ss → Mark.separator s ∈ marksOf (weave pss ss)
  | [], _ :: _, _, hLength, _ => by simp at hLength
  | ps :: pss, t :: ts, s, hLength, hs => by
    rw [weave, marksOf_append, marksOf_separator]
    rcases List.mem_cons.1 hs with rfl | hs
    · simp
    · have := separator_mem_weave (by simpa using hLength : pss.length = ts.length) hs
      simp [this]

theorem separator_mem_weaveAfter : ∀ {pss : List (List (Piece κ))} {ss : List κ} {s : κ},
    pss.length = ss.length → s ∈ ss → Mark.separator s ∈ marksOf (weaveAfter ss pss)
  | [], _ :: _, _, hLength, _ => by simp at hLength
  | ps :: pss, t :: ts, s, hLength, hs => by
    rw [weaveAfter, marksOf_separator, marksOf_append]
    rcases List.mem_cons.1 hs with rfl | hs
    · simp
    · have := separator_mem_weaveAfter (by simpa using hLength : pss.length = ts.length) hs
      simp [this]

namespace Frame

/-- A separator that belongs in the hole of a frame is routed to the hole. -/
theorem route_eq [Std.OrientedCmp cmp] (fr : Frame κ g) {s : κ} (parent : Option NodeId)
    (x : Shape κ g) (hBefore : ∀ t, .separator t ∈ marksOf fr.before → cmp t s = .lt)
    (hAfter : ∀ t, .separator t ∈ marksOf fr.after → cmp s t = .lt) :
    (Shape.node (g + 1) parent (fr.fork [x] [])).route (goesRight cmp s)
      = fr.leftSeparators.length := by
  have hLength := fr.left_length
  have hTakeWhile : ((fr.leftSeparators ++ fr.rightSeparators).takeWhile (goesRight cmp s)).length
      = fr.leftSeparators.length := by
    refine takeWhile_length_append (fun t ht => ?_) fun t ht => ?_
    · have := hBefore t (separator_mem_weave (by simp [fr.left_length]) ht)
      simp [goesRight, Std.OrientedCmp.gt_of_lt this]
    · have := hAfter t (separator_mem_weaveAfter (by simp [fr.right_length]) ht)
      simp [goesRight, this]
  rw [fork, Shape.node_branch, Node.route, List.nil_append, hTakeWhile]
  simp
  omega

/-- A second child is put right of the hole, with a separator before it. -/
theorem node_insert (fr : Frame κ g) (parent : Option NodeId) (x y : Shape κ g) (s : κ) :
    { Shape.node (g + 1) parent (fr.fork [x] []) with
      keys := (Shape.node (g + 1) parent (fr.fork [x] [])).keys.insertIdx
        fr.leftSeparators.length s
      children := (Shape.node (g + 1) parent (fr.fork [x] [])).children.insertIdx
        (fr.leftSeparators.length + 1) (Shape.id g y) }
      = Shape.node (g + 1) parent (fr.fork [x, y] [s]) := by
  have hLength : ((fr.left ++ [x]).map (Shape.id g)).length = fr.leftSeparators.length + 1 := by
    simp [fr.left_length]
  have hKeys := insertIdx_length fr.leftSeparators fr.rightSeparators s
  have hChildren := insertIdx_length ((fr.left ++ [x]).map (Shape.id g))
    (fr.right.map (Shape.id g)) (Shape.id g y)
  rw [hLength] at hChildren
  simp only [List.map_append, List.map_cons, List.map_nil, List.append_assoc,
    List.singleton_append] at hChildren
  simp [fork, Shape.node_branch, hKeys, hChildren]

end Frame

/-- A branch that gets a second child in its hole has one key more. -/
theorem Context.fitsBelow_two {fanout : Nat} {fr : Frame κ g} {above : Context κ (g + 1) h}
    (hC : (Context.under fr above).Fits fanout) {x y : Shape κ g} (s : κ)
    (hx : Shape.Fits fanout g x) (hy : Shape.Fits fanout g y) :
    Shape.FitsBelow fanout (g + 1) (fr.fork [x, y] [s]) ∧
      Shape.load (g + 1) (fr.fork [x, y] [s]) ≤ fanout := by
  obtain ⟨hSiblings, -, hLength, -⟩ := hC
  rw [List.length_append] at hLength
  refine ⟨(Shape.fitsBelow_branch ..).2 ⟨?_, by simp, fun c hc => ?_⟩, ?_⟩
  · simp [fr.left_length, fr.right_length]
    omega
  · simp only [List.cons_append, List.nil_append, List.mem_append, List.mem_cons] at hc
    rcases hc with hc | rfl | rfl | hc
    · exact hSiblings c (List.mem_append_left _ hc)
    · exact hx
    · exact hy
    · exact hSiblings c (List.mem_append_right _ hc)
  · simp [Frame.fork]
    omega

theorem Context.ample_two {fanout : Nat} {fr : Frame κ g} {above : Context κ (g + 1) h}
    (hC : (Context.under fr above).Ample fanout) {x y : Shape κ g} (s : κ)
    (hx : Shape.Ample fanout ((fanout + 1) / 2) g x)
    (hy : Shape.Ample fanout ((fanout + 1) / 2) g y) :
    Shape.Ample fanout 0 h (above.fill (fr.fork [x, y] [s])) := by
  obtain ⟨hWidth, hSiblings, hAbove⟩ := hC
  refine (above.ample_fill _).2 ⟨hAbove, (Shape.ample_branch ..).2 ⟨?_, fun c hc => ?_⟩⟩
  · simp only [List.length_append, List.length_cons, List.length_nil] at hWidth ⊢
    omega
  · simp only [List.cons_append, List.nil_append, List.mem_append, List.mem_cons] at hc
    rcases hc with hc | rfl | rfl | hc
    · exact hSiblings c (List.mem_append_left _ hc)
    · exact hx
    · exact hy
    · exact hSiblings c (List.mem_append_right _ hc)

/-- A shape after nodes of it have been divided. -/
structure Shape.Regrown (fanout : Nat) {h h' : Nat} (T : Shape κ h) (T' : Shape κ h') : Prop where
  entries : entriesOf (pieces h' T') = entriesOf (pieces h T)
  everywhere : ∀ P, Everywhere P (pieces h T) → Everywhere P (pieces h' T')
  ample : Ample fanout 0 h T → Ample fanout 0 h' T'
  credit : credit fanout h' T' = credit fanout h T

theorem Shape.Regrown.refl (fanout : Nat) (T : Shape κ h) : T.Regrown fanout T :=
  ⟨rfl, fun _ hP => hP, fun hT => hT, rfl⟩

theorem Shape.Regrown.trans {fanout g₁ g₂ g₃ : Nat} {T₁ : Shape κ g₁} {T₂ : Shape κ g₂}
    {T₃ : Shape κ g₃} (h : T₁.Regrown fanout T₂) (h' : T₂.Regrown fanout T₃) :
    T₁.Regrown fanout T₃ where
  entries := h'.entries.trans h.entries
  everywhere P hP := h'.everywhere P (h.everywhere P hP)
  ample hT := h'.ample (h.ample hT)
  credit := h'.credit.trans h.credit

namespace Arena

/-! ### Attaching the new half -/

/-- The parent of a node that has been cut in two is the branch with the hole. -/
theorem Divided.exists_left {a : Arena κ} {C : Context κ g h} {x y : Shape κ g} {s : κ}
    (ha : a.Divided cmp C x s y) : ∃ n, a.node? (Shape.id g x) = some n ∧ n.parent = C.parent := by
  obtain ⟨n, hn, hUnlinked⟩ := ha.holds.exists_node (Shape.id g x) (Shape.node g C.parent x)
    (by simp [Shape.records_eq])
  refine ⟨n, hn, ?_⟩
  rw [← Node.parent_unlinked, hUnlinked, Shape.node_parent]

/-- The root has been cut in two. -/
theorem Divided.exists_attach_root {a : Arena κ} {x y : Shape κ g} {s : κ}
    (ha : a.Divided cmp .root x s y) :
    ∃ a', a.attach cmp (Shape.id g x) s (Shape.id g y) = some (none, a') ∧
      a'.Draws cmp (.branch a.nodes.size [s] [x, y]) := by
  have hHolds := ha.holds
  rw [Context.records, Multiset.zero_add] at hHolds
  obtain ⟨n, hn, hParent⟩ := ha.exists_left
  rw [Context.parent] at hParent
  obtain ⟨hb, hab⟩ := hHolds.alloc
    (Shape.node (g + 1) none (.branch a.nodes.size [s] [x, y]))
  rw [Shape.node_unlinked, ← Multiset.singleton_add, Multiset.add_comm] at hb
  have hHalves : (a.alloc (Shape.node (g + 1) none (.branch a.nodes.size [s] [x, y]))).2.Holds
      (([x, y].map (Shape.records g none)).sum +
        {(a.nodes.size, Shape.node (g + 1) none (.branch a.nodes.size [s] [x, y]))}) := by
    simpa [Context.parent] using hb
  obtain ⟨c, hAdopt, hc, hbc, -⟩ := hHalves.adopt a.nodes.size
  have hPieces : Shape.pieces (g + 1) (.branch a.nodes.size [s] [x, y])
      = Shape.pieces g x ++ .separator s :: Shape.pieces g y := by
    simp [Shape.pieces_branch, weave]
  refine ⟨{ c with root := a.nodes.size }, ?_, rfl, ?_, ?_, ?_⟩
  · simp only [attach, hn, hParent, Option.bind_eq_bind, Option.bind_some, Option.pure_def]
    exact congrArg (Option.bind · _) hAdopt
  · convert (⟨hc.numbers, hc.node⟩ : Holds { c with root := a.nodes.size } _) using 1
    rw [Shape.records_branch, ← Multiset.singleton_add, Multiset.add_comm]
  · rw [hPieces]
    have hLinked := ha.linked.of_changes (hab.trans hbc)
    rw [Context.before, Context.after, List.nil_append, List.append_nil] at hLinked
    exact hLinked.congr fun _ _ => rfl
  · rw [hPieces]
    have hSorted := ha.sorted
    rwa [Context.before, Context.after, List.nil_append, List.append_nil] at hSorted

/-- What the branch above gets when it is found with room at the place of the separator. -/
theorem attach_eq {a b c : Arena κ} {left right above : NodeId} {n m : Node κ} {s : κ} {i : Nat}
    (hn : a.node? left = some n) (hParent : n.parent = some above) (hm : a.node? above = some m)
    (hRoute : m.route (goesRight cmp s) = i) (hKeys : i ≤ m.keys.length)
    (hChildren : i + 1 ≤ m.children.length)
    (hUpdate : a.update above (fun m => { m with
      keys := m.keys.insertIdx i s, children := m.children.insertIdx (i + 1) right }) = some b)
    (hAdopt : b.adopt above [right] = some c) :
    a.attach cmp left s right = some (some above, c) := by
  have hRoom : ¬ (m.keys.length < i ∨ m.children.length < i + 1) := by omega
  simp only [attach, hn, hParent, hm, hRoute, if_neg hRoom, hUpdate, hAdopt, Option.bind_eq_bind,
    Option.bind_some, Option.pure_def]

theorem Divided.route_eq [Std.OrientedCmp cmp] {a : Arena κ} {fr : Frame κ g}
    {above : Context κ (g + 1) h} {x y : Shape κ g} {s : κ}
    (ha : a.Divided cmp (.under fr above) x s y) (parent : Option NodeId) :
    (Shape.node (g + 1) parent (fr.fork [x] [])).route (goesRight cmp s)
      = fr.leftSeparators.length := by
  have hSorted := ha.sorted
  simp only [Sorted, Context.before, Context.after, marksOf_append, marksOf_separator,
    List.append_assoc, List.cons_append, List.pairwise_append, List.pairwise_cons,
    List.mem_append, List.mem_cons] at hSorted
  obtain ⟨-, ⟨-, ⟨-, ⟨hAfter, -⟩, -⟩, hBefore⟩, -⟩ := hSorted
  refine fr.route_eq parent x (fun t ht => ?_) fun t ht => ?_
  · exact hBefore _ ht (.separator s) (Or.inr (Or.inl rfl))
  · exact hAfter (.separator t) (Or.inr (Or.inl ht))

/-- A child of a branch has been cut in two. -/
theorem Divided.exists_attach_under [Std.OrientedCmp cmp] {a : Arena κ} {fr : Frame κ g}
    {above : Context κ (g + 1) h} {x y : Shape κ g} {s : κ}
    (ha : a.Divided cmp (.under fr above) x s y) :
    ∃ a', a.attach cmp (Shape.id g x) s (Shape.id g y) = some (some fr.id, a') ∧
      a'.Draws cmp (above.fill (fr.fork [x, y] [s])) := by
  obtain ⟨n, hn, hParent⟩ := ha.exists_left
  let siblings := ((fr.left ++ fr.right).map (Shape.records g (some fr.id))).sum
  have hRecords : (Context.under fr above).records (Shape.id g x) +
      (Shape.records g (some fr.id) x + Shape.records g (some fr.id) y)
      = (fr.id, Shape.node (g + 1) above.parent (fr.fork [x] [])) ::ₘ
        (above.records fr.id + siblings +
          (Shape.records g (some fr.id) x + Shape.records g (some fr.id) y)) := by
    rw [Context.records_under]
    simp only [siblings, ← Multiset.singleton_add]
    abel
  have hHolds : a.Holds _ := hRecords ▸ ha.holds
  have hm := hHolds.eq_of_branch (x := fr.fork [x] []) (Multiset.mem_cons_self _ _)
  obtain ⟨b, hUpdate, hb, hab, -⟩ := hHolds.update_unlinked
    (k := Shape.node (g + 1) above.parent (fr.fork [x, y] [s]))
    (fun m => { m with
      keys := m.keys.insertIdx fr.leftSeparators.length s
      children := m.children.insertIdx (fr.leftSeparators.length + 1) (Shape.id g y) })
    (fun m hm => by
      rw [Node.eq_of_unlinked hm, fr.node_insert]
      exact Shape.node_unlinked ..)
    (fun m => ⟨rfl, rfl⟩)
  have hNew : b.Holds (([y].map (Shape.records g (some fr.id))).sum +
      ((fr.id, Shape.node (g + 1) above.parent (fr.fork [x, y] [s])) ::ₘ (above.records fr.id +
        siblings + Shape.records g (some fr.id) x))) := by
    convert hb using 1
    simp only [List.map_cons, List.map_nil, List.sum_cons, List.sum_nil, ← Multiset.singleton_add]
    abel
  obtain ⟨c, hAdopt, hc, hbc, -⟩ := hNew.adopt fr.id
  have hChanges := hab.trans hbc
  have hPieces : Shape.pieces h (above.fill (fr.fork [x, y] [s]))
      = (Context.under fr above).before ++ ((Shape.pieces g x ++ .separator s ::
        Shape.pieces g y) ++ (Context.under fr above).after) := by
    simp [above.pieces_fill, Frame.pieces_two, Context.before, Context.after]
  refine ⟨c, ?_, ?_, ?_, ?_, ?_⟩
  · refine attach_eq hn hParent hm (ha.route_eq _) ?_ ?_ hUpdate hAdopt
    · simp [Frame.fork, Shape.node_branch]
    · simp [Frame.fork, Shape.node_branch, fr.left_length]
  · rw [hChanges.root, ha.root]
    exact above.id_fill rfl
  · convert hc using 1
    rw [above.records_fill, fr.records_fork]
    simp only [siblings, Frame.id_fork, List.map_cons, List.map_nil, List.sum_cons,
      List.sum_nil, ← Multiset.singleton_add]
    abel
  · rw [hPieces]
    exact ha.linked.of_changes hChanges
  · rw [hPieces]
    exact ha.sorted

/-! ### Settling -/

/-- A node has been cut in two halves that fit, and nothing is lost by that. -/
structure Halved (cmp : κ → κ → Ordering) (fanout : Nat) (a : Arena κ) (C : Context κ g h)
    (x x' : Shape κ g) (s : κ) (y : Shape κ g) : Prop where
  divided : a.Divided cmp C x' s y
  id_eq : Shape.id g x' = Shape.id g x
  left : Shape.Fits fanout g x'
  right : Shape.Fits fanout g y
  entries : entriesOf (Shape.pieces g x' ++ .separator s :: Shape.pieces g y)
    = entriesOf (Shape.pieces g x)
  everywhere : ∀ P, Everywhere P (Shape.pieces g x) →
    Everywhere P (Shape.pieces g x' ++ .separator s :: Shape.pieces g y)
  charge : charge fanout (Shape.pieces g x' ++ .separator s :: Shape.pieces g y)
    = charge fanout (Shape.pieces g x)
  ample : ∀ least, Shape.Ample fanout least g x →
    Shape.Ample fanout ((fanout + 1) / 2) g x' ∧ Shape.Ample fanout ((fanout + 1) / 2) g y

theorem exists_halved_leaf [Std.TransCmp cmp] {fanout : Nat} (hFanout : 4 ≤ fanout)
    {a : Arena κ} {C : Context κ 0 h} {id : NodeId} {es : Multimap κ}
    (ha : a.Draws cmp (C.fill (.leaf id es))) (hEntries : ∀ e ∈ es, e.2 ≠ [])
    (hLoad : es.length = fanout) :
    ∃ (x' : Shape κ 0) (s : κ) (y : Shape κ 0) (a' : Arena κ),
      a.splitLeaf id = some (s, Shape.id 0 y, a') ∧
      a'.Halved cmp fanout C (.leaf id es) x' s y := by
  obtain ⟨l, r, rfl, hl⟩ : ∃ l r, es = l ++ r ∧ l.length = es.length / 2 :=
    ⟨_, _, (List.take_append_drop (es.length / 2) _).symm, by simp; omega⟩
  rw [List.length_append] at hLoad
  have hMid := hl
  rw [List.length_append] at hl
  obtain ⟨d, l, rfl⟩ := List.exists_cons_of_length_pos (l := l) (by omega)
  obtain ⟨e, r, rfl⟩ := List.exists_cons_of_length_pos (l := r) (by omega)
  obtain ⟨a', hSplit, hDivided⟩ := exists_splitLeaf ha hMid
  obtain ⟨hLeft, hRight⟩ := List.forall_mem_append.1 hEntries
  refine ⟨_, _, _, a', hSplit, hDivided, rfl, ⟨hLeft, ?_⟩, ⟨hRight, ?_⟩, ?_, fun P hP => ?_, ?_,
    fun _ _ => ⟨trivial, trivial⟩⟩
  · rw [Shape.load_leaf]
    omega
  · rw [Shape.load_leaf]
    omega
  · simp
  · simp only [Shape.pieces_leaf, everywhere_page, List.forall_mem_append,
      List.forall_mem_cons] at hP
    obtain ⟨⟨hl, he, hr⟩, -⟩ := hP
    simp only [Shape.pieces_leaf, everywhere_append, everywhere_page, everywhere_separator,
      everywhere_nil, List.forall_mem_cons, and_true]
    exact ⟨hl, he, he, hr⟩
  · simp only [Shape.pieces_leaf, charge_append, charge_page, charge_separator, charge_nil,
      List.length_append]
    omega

theorem exists_halved_branch {fanout : Nat} (hFanout : 4 ≤ fanout) {a : Arena κ}
    {C : Context κ (g + 1) h} {id : NodeId} {ss : List κ} {cs : List (Shape κ g)}
    (ha : a.Draws cmp (C.fill (.branch id ss cs)))
    (hx : Shape.FitsBelow fanout (g + 1) (.branch id ss cs)) (hLoad : ss.length = fanout) :
    ∃ (x' : Shape κ (g + 1)) (s : κ) (y : Shape κ (g + 1)) (a' : Arena κ),
      a.splitBranch id = some (s, Shape.id (g + 1) y, a') ∧
      a'.Halved cmp fanout C (.branch id ss cs) x' s y := by
  obtain ⟨hLength, -, hChildren⟩ := (Shape.fitsBelow_branch ..).1 hx
  obtain ⟨ls, rs, rfl, hls⟩ : ∃ ls rs, ss = ls ++ rs ∧ ls.length = ss.length / 2 :=
    ⟨_, _, (List.take_append_drop (ss.length / 2) _).symm, by simp; omega⟩
  rw [List.length_append] at hLoad hLength
  have hMid := hls
  rw [List.length_append] at hls
  obtain ⟨s, rs, rfl⟩ := List.exists_cons_of_length_pos (l := rs) (by omega)
  obtain ⟨l, r, rfl, hl⟩ : ∃ l r, cs = l ++ r ∧ l.length = ls.length + 1 :=
    ⟨_, _, (List.take_append_drop (ls.length + 1) _).symm, by simp; omega⟩
  rw [List.length_append] at hLength
  rw [List.length_cons] at hLoad hLength hls
  obtain ⟨a', hSplit, hDivided⟩ := exists_splitBranch ha hMid hl
  obtain ⟨hLeft, hRight⟩ := List.forall_mem_append.1 hChildren
  have hPieces := Shape.pieces_cut id s rs r a.nodes.size hl
  refine ⟨.branch id ls l, s, .branch a.nodes.size rs r, a', hSplit, hDivided, rfl, ⟨?_, ?_⟩,
    ⟨?_, ?_⟩, ?_, fun P hP => ?_, ?_, fun least hAmple => ?_⟩
  · exact (Shape.fitsBelow_branch ..).2 ⟨hl, List.ne_nil_of_length_pos (by omega), hLeft⟩
  · rw [Shape.load_branch]
    omega
  · exact (Shape.fitsBelow_branch ..).2
      ⟨by omega, List.ne_nil_of_length_pos (by omega), hRight⟩
  · rw [Shape.load_branch]
    omega
  · rw [hPieces]
  · rwa [← hPieces]
  · rw [hPieces]
  · obtain ⟨hl', hr'⟩ := List.forall_mem_append.1 ((Shape.ample_branch ..).1 hAmple).2
    exact ⟨(Shape.ample_branch ..).2 ⟨by omega, hl'⟩, (Shape.ample_branch ..).2 ⟨by omega, hr'⟩⟩

/-- What has been cut in two is whole again under a new root. -/
theorem Halved.regrown_root {fanout : Nat} {a : Arena κ} {x x' y : Shape κ g} {s : κ}
    (ha : a.Halved cmp fanout .root x x' s y) (hFull : Shape.load g x = fanout) (id : NodeId) :
    (Context.root.fill x).Regrown fanout (.branch id [s] [x', y]) where
  entries := by simpa [Shape.pieces_branch, weave, Context.fill] using ha.entries
  everywhere P hP := by simpa [Shape.pieces_branch, weave] using ha.everywhere P hP
  ample hAmple := by simpa [Shape.ample_branch] using ha.ample 0 hAmple
  credit := by
    rw [Context.fill, Shape.credit_of_full hFull, ← ha.charge]
    simp [Shape.credit, Shape.pieces_branch, weave]

/-- What has been cut in two is whole again in the branch above. -/
theorem Halved.regrown_under {fanout : Nat} {a : Arena κ} {fr : Frame κ g}
    {above : Context κ (g + 1) h} {x x' y : Shape κ g} {s : κ}
    (ha : a.Halved cmp fanout (.under fr above) x x' s y) :
    ((Context.under fr above).fill x).Regrown fanout (above.fill (fr.fork [x', y] [s])) where
  entries := by
    rw [Context.pieces_fill, Context.fill, Context.pieces_fill, Frame.pieces_two, Frame.pieces_one]
    simp only [entriesOf_append, ha.entries]
  everywhere P hP := by
    rw [Context.fill, Context.pieces_fill, Frame.pieces_one] at hP
    rw [Context.pieces_fill, Frame.pieces_two]
    simp only [everywhere_append] at hP ⊢
    obtain ⟨hOuter, ⟨hBefore, hHole, hAfter⟩, hRest⟩ := hP
    have hMarks := (everywhere_append ..).1 (ha.everywhere P hHole)
    exact ⟨hOuter, ⟨hBefore, hMarks, hAfter⟩, hRest⟩
  ample hAmple := by
    obtain ⟨hContext, hHole⟩ := (Context.ample_fill _ _).1 hAmple
    obtain ⟨hLeft, hRight⟩ := ha.ample _ hHole
    exact Context.ample_two hContext s hLeft hRight
  credit := by
    have hHeight := Nat.lt_of_succ_le above.le
    rw [Shape.credit_eq_charge (by omega), Shape.credit_eq_charge (by omega), Context.pieces_fill,
      Context.fill, Context.pieces_fill, Frame.pieces_two, Frame.pieces_one]
    simp only [charge_append, ha.charge]

/-- A node that has exactly as many keys as the fan-out is cut into two nodes that fit. -/
theorem exists_split [Std.TransCmp cmp] {fanout : Nat} (hFanout : minFanout ≤ fanout) {a : Arena κ}
    {C : Context κ g h} {x : Shape κ g} (ha : a.Draws cmp (C.fill x))
    (hx : Shape.FitsBelow fanout g x) (hLoad : Shape.load g x = fanout) :
    ∃ (n : Node κ) (x' : Shape κ g) (s : κ) (y : Shape κ g) (a' : Arena κ),
      a.node? (Shape.id g x) = some n ∧ n.keys.length = fanout ∧
      (if n.isLeaf then a.splitLeaf (Shape.id g x) else a.splitBranch (Shape.id g x))
        = some (s, Shape.id g y, a') ∧
      a'.Halved cmp fanout C x x' s y := by
  replace hFanout : 4 ≤ fanout := by simpa [minFanout] using hFanout
  obtain ⟨n, hn, hUnlinked⟩ := ha.exists_node
  have hKeys : n.keys.length = fanout := by
    rw [← hLoad, ← Shape.node_keys_length g C.parent x, ← hUnlinked, Node.keys_unlinked]
  cases g with
  | zero =>
    obtain ⟨hLeaf, -⟩ := Node.leaf_of_unlinked hUnlinked
    obtain ⟨x', s, y, a', hSplit, hHalved⟩ := exists_halved_leaf hFanout ha hx hLoad
    exact ⟨n, x', s, y, a', hn, hKeys, (if_pos hLeaf).trans hSplit, hHalved⟩
  | succ g =>
    have hBranch : ¬ n.isLeaf = true := by
      rw [Node.eq_of_unlinked hUnlinked]
      exact Bool.false_ne_true
    obtain ⟨x', s, y, a', hSplit, hHalved⟩ := exists_halved_branch hFanout ha hx hLoad
    exact ⟨n, x', s, y, a', hn, hKeys, (if_neg hBranch).trans hSplit, hHalved⟩

theorem settle_of_load_lt {fanout : Nat} {a : Arena κ} {C : Context κ g h} {x : Shape κ g}
    (ha : a.Draws cmp (C.fill x)) (hLoad : Shape.load g x < fanout) (nodes : Nat) :
    settleWithin cmp fanout (nodes + 1) a (Shape.id g x) = some a := by
  obtain ⟨n, hn, hUnlinked⟩ := ha.exists_node
  have hKeys : n.keys.length = Shape.load g x := by
    rw [← Shape.node_keys_length g C.parent x, ← hUnlinked, Node.keys_unlinked]
  rw [settleWithin, hn]
  simp [hKeys, hLoad]

/-- One round of settling: what is attached above is settled next. -/
theorem settle_of_split {fanout : Nat} {a b c : Arena κ} {id new : NodeId} {n : Node κ} {s : κ}
    {above : Option NodeId} (hn : a.node? id = some n) (hFull : n.keys.length = fanout)
    (hSplit : (if n.isLeaf then a.splitLeaf id else a.splitBranch id) = some (s, new, b))
    (hAttach : b.attach cmp id s new = some (above, c)) (nodes : Nat) :
    settleWithin cmp fanout (nodes + 1) a id
      = above.elim (some c) (settleWithin cmp fanout nodes c) := by
  have hNotLess : ¬ n.keys.length < fanout := by omega
  rw [settleWithin, hn]
  simp only [Option.bind_eq_bind, Option.bind_some, if_neg hNotLess]
  cases hLeaf : n.isLeaf <;>
    simp only [hLeaf, Bool.false_eq_true, if_true, if_false] at hSplit ⊢ <;>
    simp only [hSplit, hAttach, Option.bind_some] <;> cases above <;> rfl

/-- Dividing a node that may have too many keys, and the branches above it. -/
theorem exists_settle [Std.TransCmp cmp] {fanout : Nat} (hFanout : minFanout ≤ fanout)
    {a : Arena κ} (C : Context κ g h) (x : Shape κ g) (ha : a.Draws cmp (C.fill x))
    (hC : C.Fits fanout) (hx : Shape.FitsBelow fanout g x) (hLoad : Shape.load g x ≤ fanout)
    {nodes : Nat} (hNodes : h < g + nodes) :
    ∃ (a' : Arena κ) (h' : Nat) (T : Shape κ h'),
      settleWithin cmp fanout nodes a (Shape.id g x) = some a' ∧
      a'.Draws cmp T ∧ Shape.Fits fanout h' T ∧ (C.fill x).Regrown fanout T := by
  have hHeight := C.le
  obtain ⟨nodes, rfl⟩ := Nat.exists_eq_add_one.2 (show 0 < nodes by omega)
  induction C generalizing a nodes with
  | root =>
    rcases Nat.lt_or_eq_of_le hLoad with hLess | hFull
    · exact ⟨a, _, _, settle_of_load_lt ha hLess nodes, ha, ⟨hx, hLess⟩, .refl fanout _⟩
    · obtain ⟨n, x', s, y, b, hn, hKeys, hSplit, hb⟩ := exists_split hFanout ha hx hFull
      obtain ⟨c, hAttach, hc⟩ := hb.divided.exists_attach_root
      rw [hb.id_eq] at hAttach
      refine ⟨c, _, _, settle_of_split hn hKeys hSplit hAttach nodes, hc,
        ⟨(Shape.fitsBelow_branch ..).2 ⟨rfl, by simp, ?_⟩, ?_⟩, hb.regrown_root hFull _⟩
      · simp [hb.left, hb.right]
      · exact Nat.lt_of_lt_of_le (show 1 < minFanout by decide) hFanout
  | under fr above ih =>
    rcases Nat.lt_or_eq_of_le hLoad with hLess | hFull
    · exact ⟨a, _, _, settle_of_load_lt ha hLess nodes, ha, Context.fits_fill _ x hC ⟨hx, hLess⟩,
        .refl fanout _⟩
    · obtain ⟨n, x', s, y, b, hn, hKeys, hSplit, hb⟩ := exists_split hFanout ha hx hFull
      obtain ⟨c, hAttach, hc⟩ := hb.divided.exists_attach_under
      rw [hb.id_eq] at hAttach
      -- The branch above is the node to settle next, with one frame less around it.
      obtain ⟨hBelow, hForkLoad⟩ := Context.fitsBelow_two hC s hb.left hb.right
      have hAbove := above.le
      obtain ⟨nodes, rfl⟩ := Nat.exists_eq_add_one.2 (show 0 < nodes by omega)
      obtain ⟨a', h', T, hSettle, hDraws, hFits, hT⟩ :=
        ih _ hc hC.2.2.2 hBelow hForkLoad hAbove nodes (by omega)
      exact ⟨a', h', T, (settle_of_split hn hKeys hSplit hAttach _).trans hSettle, hDraws, hFits,
        hb.regrown_under.trans hT⟩

end Arena

end IndexScan

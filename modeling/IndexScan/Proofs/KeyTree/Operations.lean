import IndexScan.Proofs.KeyTree.Growth
import IndexScan.Proofs.KeyTree.Leaf

/-!
# Operations on an arena

An arena represents a multimap if it draws a shape that fits and whose leaves list the multimap.
Every operation on such an arena has a result, which is that of the multimap.  All operations go
to the leaf where their key belongs, so the rest of the multimap is on the right sides of the key
and what is true of the entries of the leaf is true of the whole.
-/

namespace IndexScan

namespace Arena

variable {κ : Type} {cmp : κ → κ → Ordering}

/-- The arena is that of a tree which lists a multimap.  All keys have a property, also those that
are left as separators only. -/
def Represents (cmp : κ → κ → Ordering) (fanout : Nat) (P : κ → Prop) (a : Arena κ)
    (m : Multimap κ) : Prop :=
  ∃ (h : Nat) (T : Shape κ h), a.Draws cmp T ∧ Shape.Fits fanout h T ∧
    entriesOf (Shape.pieces h T) = m ∧ Everywhere P (Shape.pieces h T)

variable {fanout : Nat} {P : κ → Prop} {a : Arena κ} {m : Multimap κ}

theorem draws_empty (cmp : κ → κ → Ordering) :
    (empty : Arena κ).Draws cmp (Shape.leaf 0 []) := by
  refine ⟨rfl, ⟨rfl, ?_⟩, ⟨rfl, trivial⟩, List.Pairwise.nil⟩
  intro r hr
  obtain rfl := Multiset.mem_singleton.1 hr
  rfl

theorem fits_empty (hFanout : 0 < fanout) : Shape.Fits fanout 0 (Shape.leaf 0 ([] : Multimap κ)) :=
  ⟨fun _ he => absurd he List.not_mem_nil, hFanout⟩

theorem represents_empty (hFanout : 0 < fanout) : (empty : Arena κ).Represents cmp fanout P [] :=
  ⟨0, .leaf 0 [], draws_empty cmp, fits_empty hFanout, rfl, by simp⟩

theorem Represents.ascending (h : a.Represents cmp fanout P m) : Multimap.Ascending cmp m := by
  obtain ⟨_, T, hDraws, -, rfl, -⟩ := h
  exact hDraws.sorted.ascending

/-! ### The leaf of a key -/

/-- An arena seen from the leaf where a key belongs. -/
structure At (cmp : κ → κ → Ordering) (fanout : Nat) (P : κ → Prop) (a : Arena κ)
    (m : Multimap κ) (key : κ) {h : Nat} (C : Context κ 0 h) (leaf : NodeId) (es : Multimap κ)
    (n : Node κ) : Prop where
  draws : a.Draws cmp (C.fill (.leaf leaf es))
  context : C.Fits fanout
  fits : Shape.Fits fanout 0 (.leaf leaf es)
  between : Between cmp C.before key C.after
  before : Everywhere P C.before
  keys : ∀ e ∈ es, P e.1
  after : Everywhere P C.after
  entries : m = entriesOf C.before ++ (es ++ entriesOf C.after)
  leafFor : a.leafFor cmp key = some leaf
  node : a.node? leaf = some n
  lists : n.Lists es
  unlinked : n.unlinked = Shape.node 0 C.parent (.leaf leaf es)

theorem Draws.exists_at [Std.TransCmp cmp] {h : Nat} {T : Shape κ h} (hDraws : a.Draws cmp T)
    (hFits : Shape.Fits fanout h T) (hP : Everywhere P (Shape.pieces h T)) (key : κ) :
    ∃ (C : Context κ 0 h) (leaf : NodeId) (es : Multimap κ) (n : Node κ),
      C.fill (.leaf leaf es) = T ∧
        a.At cmp fanout P (entriesOf (Shape.pieces h T)) key C leaf es n := by
  have hNone : marksOf ([] : List (Piece κ)) = [] := rfl
  obtain ⟨C, ⟨leaf, es⟩, hFill, hC, hp, hLeft, hRight, hDescend⟩ := exists_leaf_below cmp
    (goesRight cmp key) .root T trivial hFits
    (by simpa [Context.before, Context.after] using hDraws.sorted)
    (by simp [LeftOf, Context.before, hNone]) (by simp [RightOf, Context.after, hNone])
  replace hFill : C.fill (.leaf leaf es) = T := hFill
  rw [Context.fill] at hDescend
  have hDraws' : a.Draws cmp (C.fill (.leaf leaf es)) := hFill ▸ hDraws
  obtain ⟨n, hn, hUnlinked⟩ := hDraws'.exists_node
  obtain ⟨-, -, -, hLeafKeys, hLeafIds⟩ := Node.leaf_of_unlinked hUnlinked
  rw [← hFill, C.pieces_fill] at hP
  simp only [Shape.pieces_leaf, everywhere_append, everywhere_page, everywhere_nil, and_true] at hP
  obtain ⟨hBefore, hKeys, hAfter⟩ := hP
  refine ⟨C, leaf, es, n, hFill, hDraws', hC, hp, between_of_goesRight hLeft hRight, hBefore, hKeys,
    hAfter, ?_, ?_, hn, ⟨hLeafKeys, hLeafIds⟩, hUnlinked⟩
  · rw [← hFill, C.pieces_fill]
    simp
  · rw [Arena.leafFor, hDraws.root]
    exact hDescend a _ _ (follows_route _) hDraws.holds (hDraws.height_lt hFits)

theorem Represents.exists_at [Std.TransCmp cmp] (hm : a.Represents cmp fanout P m) (key : κ) :
    ∃ (h : Nat) (C : Context κ 0 h) (leaf : NodeId) (es : Multimap κ) (n : Node κ),
      a.At cmp fanout P m key C leaf es n := by
  obtain ⟨h, T, hDraws, hFits, rfl, hP⟩ := hm
  obtain ⟨C, leaf, es, n, -, hAt⟩ := hDraws.exists_at hFits hP key
  exact ⟨h, C, leaf, es, n, hAt⟩

namespace At

variable {key : κ} {h : Nat} {C : Context κ 0 h} {leaf : NodeId} {es : Multimap κ} {n : Node κ}

theorem ascending (hAt : a.At cmp fanout P m key C leaf es n) : Multimap.Ascending cmp es := by
  have hSorted := hAt.draws.sorted.ascending
  rw [C.pieces_fill] at hSorted
  simp only [entriesOf_append, Shape.pieces_leaf, entriesOf_page, entriesOf_nil, List.append_nil]
    at hSorted
  exact (List.pairwise_append.1 (List.pairwise_append.1 hSorted).2.1).1

/-- The leaf may be replaced by one with other entries that belong in its place. -/
theorem exists_replace (hAt : a.At cmp fanout P m key C leaf es n) {es' : Multimap κ}
    (hAscending : Multimap.Ascending cmp es')
    (hKeys : ∀ e ∈ es', e.1 = key ∨ ∃ f ∈ es, f.1 = e.1) :
    ∃ a', (a.update leaf fun _ => n.relist es') = some a' ∧
      a'.Draws cmp (C.fill (.leaf leaf es')) := by
  have hHolds := hAt.draws.holds
  rw [C.records_fill, Shape.records_leaf, Shape.id_leaf, Multiset.add_comm,
    Multiset.singleton_add] at hHolds
  obtain ⟨b, hUpdate, hb, hRoot, hSize, hNode⟩ := hHolds.update
    (k := Shape.node 0 C.parent (.leaf leaf es')) (fun _ => n.relist es') fun _ _ => by
      rw [Node.unlinked_relist, hAt.unlinked]
      rfl
  have hChanges : Changes a b := by
    refine ⟨hRoot, hSize.ge, fun j _ => ?_⟩
    rw [links?, links?, hNode]
    split
    · next hj =>
      rw [← hj, hAt.node]
      rfl
    · rfl
  have hPieces (es : Multimap κ) : Shape.pieces h (C.fill (.leaf leaf es))
      = C.before ++ .page ⟨leaf, es⟩ :: C.after := by
    simp [C.pieces_fill]
  have hLinked := hAt.draws.linked
  have hSorted := hAt.draws.sorted
  rw [hPieces] at hLinked hSorted
  refine ⟨b, hUpdate, ?_, ?_, ?_, ?_⟩
  · rw [hRoot, hAt.draws.root]
    exact C.id_fill rfl
  · rwa [C.records_fill, Shape.records_leaf, Shape.id_leaf, Multiset.add_comm,
      Multiset.singleton_add]
  · rw [hPieces]
    have := hLinked.of_changes hChanges
    simpa using this
  · rw [hPieces]
    refine hSorted.replace hAscending fun e he => ?_
    rcases hKeys e he with hKey | hOld
    · exact Or.inr (hKey ▸ hAt.between)
    · exact Or.inl hOld

end At

/-! ### Reading -/

theorem Represents.get_eq [Std.TransCmp cmp] (hm : a.Represents cmp fanout P m) (key : κ) :
    a.get cmp key = some (m.get cmp key) := by
  obtain ⟨h, C, leaf, es, n, hAt⟩ := hm.exists_at key
  obtain ⟨below, own, above, hSplit⟩ := hAt.ascending.exists_split key
  rw [hAt.entries, hSplit.get_append hAt.between.entries.1 hAt.between.entries.2, hSplit.get_eq]
  rw [get, hAt.leafFor]
  simp only [Option.bind_eq_bind, Option.bind_some, hAt.node, Node.find?_eq hAt.lists hSplit]
  cases own with
  | none => rfl
  | some e => exact Node.ids_at_slot hAt.lists hSplit

theorem At.contains_eq {key : κ} {h : Nat} {C : Context κ 0 h} {leaf : NodeId}
    {es below above : Multimap κ} {n : Node κ} {own : Option (Entry κ)}
    (hAt : a.At cmp fanout P m key C leaf es n)
    (hSplit : Multimap.Split cmp key es below own above) :
    a.contains cmp key = some own.isSome := by
  rw [contains, hAt.leafFor]
  simp only [Option.bind_eq_bind, Option.bind_some, hAt.node, Node.find?_eq hAt.lists hSplit]
  cases own <;> rfl

theorem Represents.contains_eq [Std.TransCmp cmp] (hm : a.Represents cmp fanout P m) (key : κ) :
    a.contains cmp key = some (m.contains cmp key) := by
  obtain ⟨h, C, leaf, es, n, hAt⟩ := hm.exists_at key
  obtain ⟨below, own, above, hSplit⟩ := hAt.ascending.exists_split key
  rw [hAt.entries, hSplit.contains_append hAt.between.entries.1 hAt.between.entries.2,
    hSplit.contains_eq, hAt.contains_eq hSplit]

/-! ### Writing -/

section

variable [Std.TransCmp cmp] {key : κ} {h : Nat} {C : Context κ 0 h} {leaf : NodeId}
  {es below above : Multimap κ} {n : Node κ} {own : Option (Entry κ)}

/-- What is recorded goes into the leaf of the key, which may have to be divided. -/
theorem At.exists_insert (hAt : a.At cmp fanout P m key C leaf es n) (hFanout : minFanout ≤ fanout)
    (hSplit : Multimap.Split cmp key es below own above) {unique : Bool}
    (hNew : (unique && own.isSome) = false) (id : RowId) :
    ∃ (a' : Arena κ) (h' : Nat) (T : Shape κ h'),
      a.insert cmp fanout unique key id = some (.ok (), a') ∧ a'.Draws cmp T ∧
      Shape.Fits fanout h' T ∧
      (C.fill (.leaf leaf (Multimap.add cmp key id es))).Regrown fanout T := by
  obtain ⟨b, hUpdate, hb⟩ := hAt.exists_replace (hAt.ascending.add key id)
    fun e he => Multimap.key_of_mem_add he
  have hHeight := hAt.draws.height_lt (C.fits_fill _ hAt.context hAt.fits)
  rw [← size_of_update hUpdate] at hHeight
  obtain ⟨hFilled, hLoad⟩ := hAt.fits
  obtain ⟨c, h', T, hSettle, hDraws, hFits, hRegrown⟩ := exists_settle hFanout C _ hb hAt.context
    (Multimap.ids_ne_nil_add hFilled key id)
    (Nat.le_trans (Multimap.length_add_le es key id) hLoad)
    (show h < 0 + b.nodes.size by omega)
  refine ⟨c, h', T, ?_, hDraws, hFits, hRegrown⟩
  have hFound : (n.find? cmp key).isSome = own.isSome := by
    rw [Node.find?_eq hAt.lists hSplit, Option.isSome_map]
  rw [Shape.id_leaf] at hSettle
  simp only [insert, hAt.leafFor, hAt.node, hFound, hNew, Node.insertAt_eq hAt.lists hSplit,
    hUpdate, settle, hSettle, Option.bind_eq_bind, Option.bind_some, Option.pure_def,
    Bool.false_eq_true, if_false]

omit [Std.TransCmp cmp] in
theorem At.insert_duplicate (hAt : a.At cmp fanout P m key C leaf es n)
    (hSplit : Multimap.Split cmp key es below own above) (hOld : own.isSome = true) (id : RowId) :
    a.insert cmp fanout true key id = some (.error .duplicateKey, a) := by
  have hFound : (n.find? cmp key).isSome = true := by
    rw [Node.find?_eq hAt.lists hSplit, Option.isSome_map, hOld]
  simp [insert, hAt.leafFor, hAt.node, hFound]

/-- What is forgotten goes out of the leaf of the key, and no other node is touched. -/
theorem At.exists_erase (hAt : a.At cmp fanout P m key C leaf es n) (id? : Option RowId) :
    ∃ k a', a.erase cmp key id? = some (k, a') ∧
      a'.Draws cmp (C.fill (.leaf leaf (Multimap.remove cmp key id? es))) ∧
      Shape.Fits fanout h (C.fill (.leaf leaf (Multimap.remove cmp key id? es))) ∧
      k + Multimap.total (Multimap.remove cmp key id? es) = Multimap.total es := by
  obtain ⟨below, own, above, hSplit⟩ := hAt.ascending.exists_split key
  cases own with
  | none =>
    have hSame : Multimap.remove cmp key id? es = es := by
      rw [hSplit.remove_eq, hSplit.eq]
      rfl
    rw [hSame]
    refine ⟨0, a, ?_, hAt.draws, C.fits_fill _ hAt.context hAt.fits, Nat.zero_add _⟩
    simp [erase, hAt.leafFor, hAt.node, Node.find?_eq hAt.lists hSplit]
  | some e =>
    obtain ⟨k, hRemove, hTotal⟩ := Node.removeAt_eq hAt.lists hSplit id?
    obtain ⟨b, hUpdate, hb⟩ := hAt.exists_replace (hAt.ascending.remove key id?)
      fun e he => Or.inr (Multimap.key_of_mem_remove he)
    have hLoad := (Multimap.sublist_keys_remove cmp es key id?).length_le
    rw [List.length_map, List.length_map] at hLoad
    refine ⟨k, b, ?_, hb, C.fits_fill _ hAt.context ⟨?_, ?_⟩, hTotal⟩
    · simp [erase, hAt.leafFor, hAt.node, Node.find?_eq hAt.lists hSplit, hRemove, hUpdate]
    · exact Multimap.ids_ne_nil_remove hAt.fits.1 key id?
    · exact Nat.lt_of_le_of_lt hLoad hAt.fits.2

end

theorem Represents.exists_insert [Std.TransCmp cmp] (hFanout : minFanout ≤ fanout)
    (hm : a.Represents cmp fanout P m) {unique : Bool} {key : κ}
    (hNew : (unique && m.contains cmp key) = false) (hKey : P key) (id : RowId) :
    ∃ a', a.insert cmp fanout unique key id = some (.ok (), a') ∧
      a'.Represents cmp fanout P (m.add cmp key id) := by
  obtain ⟨h, C, leaf, es, n, hAt⟩ := hm.exists_at key
  obtain ⟨below, own, above, hSplit⟩ := hAt.ascending.exists_split key
  obtain ⟨hBefore, hAfter⟩ := hAt.between.entries
  rw [hAt.entries, hSplit.contains_append hBefore hAfter, hSplit.contains_eq] at hNew
  obtain ⟨a', h', T, hInsert, hDraws, hFits, hT⟩ := hAt.exists_insert hFanout hSplit hNew id
  refine ⟨a', hInsert, h', T, hDraws, hFits, ?_, hT.everywhere P ?_⟩
  · rw [hT.entries, C.pieces_fill, hAt.entries, hSplit.add_append hBefore hAfter]
    simp
  · rw [C.pieces_fill]
    simp only [Shape.pieces_leaf, everywhere_append, everywhere_page, everywhere_nil, and_true]
    refine ⟨hAt.before, fun e he => ?_, hAt.after⟩
    rcases Multimap.key_of_mem_add he with hNew | ⟨f, hf, hfe⟩
    · exact hNew ▸ hKey
    · exact hfe ▸ hAt.keys f hf

theorem Represents.insert_duplicate [Std.TransCmp cmp] (hm : a.Represents cmp fanout P m) {key : κ}
    (hOld : m.contains cmp key = true) (id : RowId) :
    a.insert cmp fanout true key id = some (.error .duplicateKey, a) := by
  obtain ⟨h, C, leaf, es, n, hAt⟩ := hm.exists_at key
  obtain ⟨below, own, above, hSplit⟩ := hAt.ascending.exists_split key
  obtain ⟨hBefore, hAfter⟩ := hAt.between.entries
  rw [hAt.entries, hSplit.contains_append hBefore hAfter, hSplit.contains_eq] at hOld
  exact hAt.insert_duplicate hSplit hOld id

theorem Represents.exists_erase [Std.TransCmp cmp] (hm : a.Represents cmp fanout P m) (key : κ)
    (id? : Option RowId) :
    ∃ k a', a.erase cmp key id? = some (k, a') ∧
      a'.Represents cmp fanout P (m.remove cmp key id?) ∧
      k + (m.remove cmp key id?).total = m.total := by
  obtain ⟨h, C, leaf, es, n, hAt⟩ := hm.exists_at key
  obtain ⟨below, own, above, hSplit⟩ := hAt.ascending.exists_split key
  obtain ⟨hBefore, hAfter⟩ := hAt.between.entries
  obtain ⟨k, a', hErase, hDraws, hFits, hTotal⟩ := hAt.exists_erase id?
  rw [hAt.entries, hSplit.remove_append hBefore hAfter]
  refine ⟨k, a', hErase, ⟨h, _, hDraws, hFits, ?_, ?_⟩, ?_⟩
  · rw [C.pieces_fill]
    simp
  · rw [C.pieces_fill]
    simp only [Shape.pieces_leaf, everywhere_append, everywhere_page, everywhere_nil, and_true]
    refine ⟨hAt.before, fun e he => ?_, hAt.after⟩
    obtain ⟨f, hf, hfe⟩ := Multimap.key_of_mem_remove he
    exact hfe ▸ hAt.keys f hf
  · simp only [Multimap.total_append]
    omega

end Arena

end IndexScan

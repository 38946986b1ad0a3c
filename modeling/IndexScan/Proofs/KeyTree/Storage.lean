import IndexScan.Proofs.KeyTree.Shape
import Mathlib.Data.Multiset.Range

/-!
# What an arena holds

`Holds` says that an arena consists of certain numbered nodes and no others.  The nodes form a
multiset, so that those an operation is about can be brought to the front and the rest carried
along unchanged.  Links between leaves are left out of it and described by `Linked`, since
dividing a leaf changes the link of a neighbour somewhere else in the tree.
-/

namespace IndexScan

variable {κ : Type}

namespace Node

/-- A node without the links between leaves. -/
def unlinked (n : Node κ) : Node κ :=
  if n.isLeaf then { n with next := none, previous := none } else n

theorem unlinked_eq (n : Node κ) : n.unlinked = { n with
    next := if n.isLeaf then none else n.next
    previous := if n.isLeaf then none else n.previous } := by
  rw [unlinked]
  split <;> rfl

@[simp] theorem keys_unlinked (n : Node κ) : n.unlinked.keys = n.keys := by rw [unlinked_eq]

@[simp] theorem ids_unlinked (n : Node κ) : n.unlinked.ids = n.ids := by rw [unlinked_eq]

@[simp] theorem parent_unlinked (n : Node κ) : n.unlinked.parent = n.parent := by rw [unlinked_eq]

@[simp] theorem isLeaf_unlinked (n : Node κ) : n.unlinked.isLeaf = n.isLeaf := by rw [unlinked_eq]

/-- What is known of a leaf when its links are not. -/
theorem leaf_of_unlinked {n : Node κ} {q : Option NodeId} {p : Page κ}
    (hn : n.unlinked = Shape.node 0 q p) :
    n.isLeaf = true ∧ n.children = [] ∧ n.parent = q ∧ n.keys = p.entries.map Prod.fst ∧
      n.ids = p.entries.map Prod.snd := by
  rw [unlinked_eq] at hn
  exact ⟨congrArg isLeaf hn, congrArg children hn, congrArg parent hn, congrArg keys hn,
    congrArg ids hn⟩

/-- A branch has no links to leave out. -/
theorem eq_of_unlinked {g : Nat} {n : Node κ} {q : Option NodeId} {x : Shape κ (g + 1)}
    (hn : n.unlinked = Shape.node (g + 1) q x) : n = Shape.node (g + 1) q x := by
  have hLeaf : n.isLeaf = false := by
    rw [← isLeaf_unlinked, hn]
    rfl
  rwa [unlinked, hLeaf] at hn

end Node

namespace Shape

theorem node_unlinked (h : Nat) (p : Option NodeId) (T : Shape κ h) :
    (node h p T).unlinked = node h p T := by
  cases h <;> rfl

end Shape

namespace Arena

/-- The links of a node to the left and to the right. -/
def links? (a : Arena κ) (id : NodeId) : Option (Option NodeId × Option NodeId) :=
  (a.node? id).map fun n => (n.previous, n.next)

/-- The arena consists of the given numbered nodes. -/
structure Holds (a : Arena κ) (rs : Multiset (NodeId × Node κ)) : Prop where
  numbers : rs.map Prod.fst = Multiset.range a.nodes.size
  node : ∀ r ∈ rs, (a.node? r.1).map Node.unlinked = some r.2

variable {a a' : Arena κ} {rs : Multiset (NodeId × Node κ)} {id : NodeId} {n : Node κ}

theorem Holds.exists_node (h : a.Holds rs) (id : NodeId) (n : Node κ) (hr : (id, n) ∈ rs) :
    ∃ m, a.node? id = some m ∧ m.unlinked = n := Option.map_eq_some_iff.1 (h.node _ hr)

theorem Holds.lt_size (h : a.Holds rs) {r : NodeId × Node κ} (hr : r ∈ rs) :
    r.1 < a.nodes.size := by
  rw [← Multiset.mem_range, ← h.numbers]
  exact Multiset.mem_map_of_mem Prod.fst hr

theorem Holds.card (h : a.Holds rs) : rs.card = a.nodes.size := by
  rw [← Multiset.card_map Prod.fst, h.numbers, Multiset.card_range]

theorem Holds.nodup (h : a.Holds rs) : (rs.map Prod.fst).Nodup := by
  rw [h.numbers]
  exact Multiset.nodup_range _

theorem Holds.total_eq (h : a.Holds rs) :
    a.total = (rs.map fun r => r.2.ids.flatten.length).sum := by
  let count (id : NodeId) : Nat := (a.node? id).elim 0 fun n => n.ids.flatten.length
  have hRecords : ∀ r ∈ rs, count r.1 = r.2.ids.flatten.length := by
    intro r hr
    obtain ⟨m, hm, hUnlinked⟩ := h.exists_node r.1 r.2 hr
    rw [← hUnlinked, Node.ids_unlinked]
    simp only [count, hm, Option.elim_some]
  have hNodes : a.nodes.toList.map (fun n => n.ids.flatten.length)
      = (List.range a.nodes.size).map count := by
    refine List.ext_getElem (by simp) fun i hi _ => ?_
    simp only [List.length_map, Array.length_toList] at hi
    simp [count, node?, hi]
  calc a.total = (a.nodes.toList.map fun n => n.ids.flatten.length).sum := List.length_flatMap
    _ = ((Multiset.range a.nodes.size).map count).sum := by rw [hNodes]; rfl
    _ = (rs.map fun r => count r.1).sum := by rw [← h.numbers, Multiset.map_map]; rfl
    _ = (rs.map fun r => r.2.ids.flatten.length).sum := by rw [Multiset.map_congr rfl hRecords]

/-! ### Changing a node -/

theorem update_eq (f : Node κ → Node κ) (hid : id < a.nodes.size) :
    a.update id f = some { a with nodes := a.nodes.modify id f } := if_pos hid

theorem size_of_update {f : Node κ → Node κ} (h : a.update id f = some a') :
    a'.nodes.size = a.nodes.size := by
  rw [update] at h
  split at h
  · obtain rfl := Option.some.inj h
    exact Array.size_modify ..
  · cases h

theorem node?_modify (f : Node κ → Node κ) (j : NodeId) :
    ({ a with nodes := a.nodes.modify id f } : Arena κ).node? j
      = if id = j then (a.node? j).map f else a.node? j := by
  simp only [node?, Array.getElem?_modify]

/-- One arena after the other, in which only a node with the given number may differ, which
keeps its links. -/
structure Changes (a a' : Arena κ) : Prop where
  root : a'.root = a.root
  size : a.nodes.size ≤ a'.nodes.size
  links : ∀ j < a.nodes.size, a'.links? j = a.links? j

theorem Changes.refl (a : Arena κ) : Changes a a := ⟨rfl, le_refl _, fun _ _ => rfl⟩

theorem Changes.trans {a b c : Arena κ} (h : Changes a b) (g : Changes b c) : Changes a c where
  root := g.root.trans h.root
  size := h.size.trans g.size
  links j hj := (g.links j (lt_of_lt_of_le hj h.size)).trans (h.links j hj)

/-- Only the node that is changed is. -/
theorem Holds.update (h : a.Holds ((id, n) ::ₘ rs)) {k : Node κ} (f : Node κ → Node κ)
    (hf : ∀ m, m.unlinked = n → (f m).unlinked = k) :
    ∃ a', a.update id f = some a' ∧ a'.Holds ((id, k) ::ₘ rs) ∧ a'.root = a.root ∧
      a'.nodes.size = a.nodes.size ∧
      ∀ j, a'.node? j = if id = j then (a.node? j).map f else a.node? j := by
  have hid : id < a.nodes.size := h.lt_size (Multiset.mem_cons_self _ _)
  refine ⟨_, update_eq f hid, ⟨?_, ?_⟩, rfl, Array.size_modify .., node?_modify f⟩
  · rw [Multiset.map_cons, Array.size_modify, ← h.numbers, Multiset.map_cons]
  · have hNodup := h.nodup
    rw [Multiset.map_cons, Multiset.nodup_cons] at hNodup
    intro r hr
    rw [node?_modify]
    rcases Multiset.mem_cons.1 hr with rfl | hr
    · obtain ⟨m, hm, hn⟩ := h.exists_node _ _ (Multiset.mem_cons_self _ _)
      simp [hm, hf m hn]
    · have hne : id ≠ r.1 := fun he =>
        hNodup.1 (Multiset.mem_map.2 ⟨r, hr, he.symm⟩)
      rw [if_neg hne]
      exact h.node r (Multiset.mem_cons_of_mem hr)

/-- A change that leaves the links of the node alone. -/
theorem Holds.update_unlinked (h : a.Holds ((id, n) ::ₘ rs)) {k : Node κ} (f : Node κ → Node κ)
    (hf : ∀ m, m.unlinked = n → (f m).unlinked = k)
    (hLinks : ∀ m, (f m).previous = m.previous ∧ (f m).next = m.next) :
    ∃ a', a.update id f = some a' ∧ a'.Holds ((id, k) ::ₘ rs) ∧ Changes a a' ∧
      a'.nodes.size = a.nodes.size := by
  obtain ⟨a', hUpdate, hHolds, hRoot, hSize, hNode⟩ := h.update f hf
  refine ⟨a', hUpdate, hHolds, ⟨hRoot, hSize.ge, fun j _ => ?_⟩, hSize⟩
  rw [links?, links?, hNode]
  split
  · cases a.node? j with
    | none => rfl
    | some m => simp [hLinks m]
  · rfl

theorem node?_alloc (n : Node κ) (j : NodeId) :
    (a.alloc n).2.node? j = if j = a.nodes.size then some n else a.node? j := by
  simp only [alloc, node?, Array.getElem?_push]

theorem Holds.alloc (h : a.Holds rs) (n : Node κ) :
    (a.alloc n).2.Holds ((a.nodes.size, n.unlinked) ::ₘ rs) ∧ Changes a (a.alloc n).2 := by
  refine ⟨⟨?_, ?_⟩, rfl, by simp [Arena.alloc], fun j hj => ?_⟩
  · rw [Multiset.map_cons, h.numbers, Arena.alloc, Array.size_push, Multiset.range_succ]
  · intro r hr
    rw [node?_alloc]
    rcases Multiset.mem_cons.1 hr with rfl | hr
    · simp
    · rw [if_neg (h.lt_size hr).ne]
      exact h.node r hr
  · rw [links?, node?_alloc, if_neg hj.ne, links?]

/-- Children change their parent and nothing else. -/
theorem Holds.adopt {g : Nat} (q : NodeId) {p : Option NodeId} (cs : List (Shape κ g))
    (h : a.Holds ((cs.map (Shape.records g p)).sum + rs)) :
    ∃ a', a.adopt q (cs.map (Shape.id g)) = some a' ∧
      a'.Holds ((cs.map (Shape.records g (some q))).sum + rs) ∧ Changes a a' ∧
      a'.nodes.size = a.nodes.size := by
  induction cs generalizing a rs with
  | nil => exact ⟨a, rfl, h, .refl a, rfl⟩
  | cons c cs ih =>
    rw [List.map_cons, List.sum_cons, Shape.records_eq, Multiset.cons_add, Multiset.cons_add] at h
    obtain ⟨b, hUpdate, hHolds, hChanges, hSize⟩ :=
      h.update_unlinked (k := Shape.node g (some q) c) (fun m => { m with parent := some q })
        (fun m hm => by
          rw [← Shape.node_adopted g p (some q) c, ← hm, Node.unlinked_eq, Node.unlinked_eq])
        (fun m => ⟨rfl, rfl⟩)
    have hRest : b.Holds
        ((cs.map (Shape.records g p)).sum + (Shape.records g (some q) c + rs)) := by
      convert hHolds using 1
      rw [Shape.records_eq]
      simp only [← Multiset.singleton_add]
      abel
    obtain ⟨b', hAdopt, hHolds', hChanges', hSize'⟩ := ih hRest
    refine ⟨b', by simp [Arena.adopt, hUpdate, hAdopt], ?_, hChanges.trans hChanges',
      hSize'.trans hSize⟩
    convert hHolds' using 1
    rw [List.map_cons, List.sum_cons]
    abel

/-! ### The chain of leaves -/

/-- The leaves with the given numbers are linked in this order, after the leaf `previous`. -/
def Linked (a : Arena κ) : Option NodeId → List NodeId → Prop
  | _, [] => True
  | previous, id :: rest => a.links? id = some (previous, rest.head?) ∧ a.Linked (some id) rest

theorem Linked.congr : ∀ {ids : List NodeId} {p : Option NodeId}, a.Linked p ids →
    (∀ j ∈ ids, a'.links? j = a.links? j) → a'.Linked p ids
  | [], _, _, _ => trivial
  | _ :: _, _, h, hSame =>
    ⟨(hSame _ (by simp)).trans h.1, h.2.congr fun j hj => hSame j (by simp [hj])⟩

theorem Linked.links_eq {l r : List NodeId} {p : Option NodeId} {id : NodeId}
    (h : a.Linked p (l ++ id :: r)) :
    a.links? id = some (l.getLast?.or p, r.head?) ∧ a.Linked (some id) r := by
  induction l generalizing p with
  | nil => exact h
  | cons j l ih =>
    have := ih h.2
    rw [List.getLast?_cons]
    cases hl : l.getLast? <;> simpa [hl] using this

/-- A new leaf is linked in after the one it was cut off from. -/
theorem Linked.insert {l r : List NodeId} {p : Option NodeId} {id new : NodeId}
    (h : a.Linked p (l ++ id :: r))
    (hLeft : ∀ j ∈ l, a'.links? j = a.links? j)
    (hId : a'.links? id = (a.links? id).map fun k => (k.1, some new))
    (hNew : a'.links? new = some (some id, r.head?))
    (hHead : ∀ j ∈ r.head?, a'.links? j = (a.links? j).map fun k => (some new, k.2))
    (hTail : ∀ j ∈ r.tail, a'.links? j = a.links? j) :
    a'.Linked p (l ++ id :: new :: r) := by
  induction l generalizing p with
  | nil =>
    obtain ⟨hIdOld, hRest⟩ := h
    refine ⟨by rw [hId, hIdOld]; rfl, hNew, ?_⟩
    cases r with
    | nil => trivial
    | cons j r =>
      exact ⟨by rw [hHead j rfl, hRest.1]; rfl, hRest.2.congr hTail⟩
  | cons j l ih =>
    refine ⟨?_, ih h.2 fun i hi => hLeft i (by simp [hi])⟩
    rw [hLeft j (by simp), h.1]
    cases l <;> rfl

end Arena

end IndexScan

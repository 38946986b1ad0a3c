import IndexScan.Proofs.KeyTree.Sorted
import IndexScan.Proofs.KeyTree.Storage
import Mathlib.Data.List.TakeWhile

/-!
# Descending to a leaf

A descent that asks a question of the separators ends in a leaf, and the shape is that leaf in a
context.  All that is left of the leaf is left of a separator for which the answer was yes, or is
that separator itself; all that is right of it is right of one for which the answer was no.
-/

namespace IndexScan

variable {κ : Type} {cmp : κ → κ → Ordering}

/-- Everything in a list of pieces is left of a separator in it that `right` holds for, or is
one. -/
def LeftOf (cmp : κ → κ → Ordering) (right : κ → Bool) (ps : List (Piece κ)) : Prop :=
  ∀ m ∈ marksOf ps, ∃ s, .separator s ∈ marksOf ps ∧ right s = true ∧
    (m = .separator s ∨ m.Before cmp (.separator s))

/-- Everything in a list of pieces is right of a separator in it that `right` does not hold for,
or is one. -/
def RightOf (cmp : κ → κ → Ordering) (right : κ → Bool) (ps : List (Piece κ)) : Prop :=
  ∀ m ∈ marksOf ps, ∃ s, .separator s ∈ marksOf ps ∧ right s = false ∧
    (m = .separator s ∨ Mark.Before cmp (.separator s) m)

theorem LeftOf.append {right : κ → Bool} {ps qs : List (Piece κ)} (hp : LeftOf cmp right ps)
    (hq : LeftOf cmp right qs) : LeftOf cmp right (ps ++ qs) := by
  intro m hm
  rw [marksOf_append] at hm ⊢
  rcases List.mem_append.1 hm with hm | hm
  · obtain ⟨s, hs, h⟩ := hp m hm
    exact ⟨s, List.mem_append_left _ hs, h⟩
  · obtain ⟨s, hs, h⟩ := hq m hm
    exact ⟨s, List.mem_append_right _ hs, h⟩

theorem RightOf.append {right : κ → Bool} {ps qs : List (Piece κ)} (hp : RightOf cmp right ps)
    (hq : RightOf cmp right qs) : RightOf cmp right (ps ++ qs) := by
  intro m hm
  rw [marksOf_append] at hm ⊢
  rcases List.mem_append.1 hm with hm | hm
  · obtain ⟨s, hs, h⟩ := hp m hm
    exact ⟨s, List.mem_append_left _ hs, h⟩
  · obtain ⟨s, hs, h⟩ := hq m hm
    exact ⟨s, List.mem_append_right _ hs, h⟩

/-- The descent with a key ends where the key belongs. -/
theorem between_of_goesRight [Std.TransCmp cmp] {key : κ} {before after : List (Piece κ)}
    (hl : LeftOf cmp (goesRight cmp key) before) (hr : RightOf cmp (goesRight cmp key) after) :
    Between cmp before key after where
  before m hm := by
    obtain ⟨s, -, hs, h⟩ := hl m hm
    have hs : cmp key s ≠ .lt := by simpa [goesRight] using hs
    rcases h with rfl | h
    · exact hs
    · exact h.key_of_separator hs
  after m hm := by
    obtain ⟨s, -, hs, h⟩ := hr m hm
    have hs : cmp key s = .lt := by simpa [goesRight] using hs
    rcases h with rfl | h
    · exact hs
    · exact Mark.key_before_of_separator h hs

/-! ### One step down -/

/-- The frame around the child with a number. -/
def Fork.frame {g : Nat} (f : Fork κ (Shape κ g)) (i : Nat) (hi : i < f.children.length)
    (hLength : f.children.length = f.separators.length + 1) : Frame κ g where
  id := f.id
  left := f.children.take i
  leftSeparators := f.separators.take i
  rightSeparators := f.separators.drop i
  right := f.children.drop (i + 1)
  left_length := by simp; omega
  right_length := by simp; omega

theorem Fork.frame_fork {g : Nat} (f : Fork κ (Shape κ g)) (i : Nat) (hi : i < f.children.length)
    (hLength : f.children.length = f.separators.length + 1) :
    (f.frame i hi hLength).fork [f.children[i]] [] = f := by
  simp [Fork.frame, Frame.fork]
  rfl

theorem take_length_takeWhile {α : Type} (p : α → Bool) (l : List α) :
    l.take (l.takeWhile p).length = l.takeWhile p :=
  (List.prefix_iff_eq_take.1 (l.takeWhile_prefix p)).symm

theorem drop_length_takeWhile {α : Type} (p : α → Bool) (l : List α) :
    l.drop (l.takeWhile p).length = l.dropWhile p := by
  induction l with
  | nil => rfl
  | cons x l ih => by_cases hx : p x <;> simp [hx, ih]

theorem takeWhile_length_append {α : Type} {p : α → Bool} {l r : List α}
    (hl : ∀ x ∈ l, p x = true) (hr : ∀ x ∈ r, p x = false) :
    ((l ++ r).takeWhile p).length = l.length := by
  rw [List.takeWhile_append_of_pos hl]
  cases r with
  | nil => simp
  | cons x r => simp [hr x (by simp)]

theorem insertIdx_length {α : Type} (l r : List α) (x : α) :
    (l ++ r).insertIdx l.length x = l ++ x :: r := by
  induction l with
  | nil => rfl
  | cons y l ih => simp [ih]

theorem leftOf_weave {right : κ → Bool} : ∀ (pss : List (List (Piece κ))) (ss : List κ),
    pss.length = ss.length → (∀ s ∈ ss, right s = true) →
    (marksOf (weave pss ss)).Pairwise (Mark.Before cmp) → LeftOf cmp right (weave pss ss)
  | [], [], _, _, _ => fun m hm => by simp [weave, marksOf] at hm
  | ps :: pss, s :: ss, hLength, hRight, hSorted => by
    rw [weave, marksOf_append, marksOf_separator] at hSorted
    obtain ⟨-, hTail, hCross⟩ := List.pairwise_append.1 hSorted
    intro m hm
    rw [weave, marksOf_append, marksOf_separator] at hm ⊢
    rcases List.mem_append.1 hm with hFirst | hm
    · exact ⟨s, by simp, hRight s (by simp), Or.inr (hCross m hFirst _ List.mem_cons_self)⟩
    · rcases List.mem_cons.1 hm with rfl | hm
      · exact ⟨s, by simp, hRight s (by simp), Or.inl rfl⟩
      · obtain ⟨t, ht, h⟩ := leftOf_weave pss ss (by simpa using hLength)
          (fun t ht => hRight t (by simp [ht])) (List.pairwise_cons.1 hTail).2 m hm
        exact ⟨t, by simp [ht], h⟩

theorem rightOf_weaveAfter {right : κ → Bool} (ss : List κ) (pss : List (List (Piece κ)))
    (hRight : ∀ s ∈ ss.head?, right s = false)
    (hSorted : (marksOf (weaveAfter ss pss)).Pairwise (Mark.Before cmp)) :
    RightOf cmp right (weaveAfter ss pss) := by
  match ss, pss with
  | [], _ => exact fun m hm => by simp [weaveAfter, marksOf] at hm
  | _ :: _, [] => exact fun m hm => by simp [weaveAfter, marksOf] at hm
  | s :: ss, ps :: pss =>
    rw [weaveAfter, marksOf_separator] at hSorted
    intro m hm
    rw [weaveAfter, marksOf_separator] at hm ⊢
    rcases List.mem_cons.1 hm with rfl | hm
    · exact ⟨s, by simp, hRight s rfl, Or.inl rfl⟩
    · exact ⟨s, by simp, hRight s rfl, Or.inr ((List.pairwise_cons.1 hSorted).1 m hm)⟩

section

variable {g : Nat} {right : κ → Bool} {f : Fork κ (Shape κ g)}
  (hi : (f.separators.takeWhile right).length < f.children.length)
  (hLength : f.children.length = f.separators.length + 1)

include hi hLength

/-- The child that is chosen is not left of what is sought. -/
theorem Fork.leftOf_frame (hSorted : Sorted cmp (f.frame _ hi hLength).before) :
    LeftOf cmp right (f.frame _ hi hLength).before := by
  refine leftOf_weave _ _ ?_ (fun s hs => ?_) hSorted
  · simp [(f.frame _ hi hLength).left_length]
  · replace hs : s ∈ f.separators.take (f.separators.takeWhile right).length := hs
    rw [take_length_takeWhile] at hs
    exact List.mem_takeWhile_imp hs

/-- The child that is chosen is not right of what is sought. -/
theorem Fork.rightOf_frame (hSorted : Sorted cmp (f.frame _ hi hLength).after) :
    RightOf cmp right (f.frame _ hi hLength).after := by
  refine rightOf_weaveAfter _ _ (fun s hs => ?_) hSorted
  replace hs : (f.separators.drop (f.separators.takeWhile right).length).head? = some s := hs
  rw [drop_length_takeWhile] at hs
  have hNot := List.head?_dropWhile_not right f.separators
  rwa [hs] at hNot

end

theorem Fork.fits_frame {fanout g h : Nat} {f : Fork κ (Shape κ g)} {C : Context κ (g + 1) h}
    (hf : Shape.Fits fanout (g + 1) f) (hC : C.Fits fanout) {i : Nat} (hi : i < f.children.length)
    (hLength : f.children.length = f.separators.length + 1) :
    (Context.under (f.frame i hi hLength) C).Fits fanout := by
  obtain ⟨⟨-, hNonempty, hChildren⟩, hLoad⟩ := hf
  refine ⟨fun c hc => hChildren c ?_, ?_, ?_, hC⟩
  · exact (List.mem_append.1 hc).elim List.mem_of_mem_take List.mem_of_mem_drop
  · exact (f.separators.take_append_drop i).symm ▸ hNonempty
  · exact (f.separators.take_append_drop i).symm ▸ hLoad

/-! ### All the way down -/

/-- A way to choose children follows `right` where there is one child more than separators. -/
def Follows (choose : Node κ → Nat) (right : κ → Bool) : Prop :=
  ∀ n : Node κ, n.children.length = n.keys.length + 1 → choose n = (n.keys.takeWhile right).length

theorem follows_route (right : κ → Bool) : Follows (Node.route right) right := by
  intro n hn
  have := (n.keys.takeWhile_prefix right).length_le
  rw [Node.route]
  omega

theorem follows_first : Follows (fun _ : Node κ => 0) fun _ => false := by
  intro n _
  cases n.keys <;> rfl

theorem follows_last : Follows (fun n : Node κ => n.children.length - 1) fun _ => true := by
  intro n hn
  have : n.keys.takeWhile (fun _ => true) = n.keys := List.takeWhile_eq_self_iff.2 fun _ _ => rfl
  simp only [this]
  omega

theorem descend_leaf {a : Arena κ} {id : NodeId} {n : Node κ} {parent : Option NodeId}
    {p : Page κ} {choose : Node κ → Nat} (hn : a.node? id = some n)
    (h : n.unlinked = Shape.node 0 parent p) (nodes : Nat) :
    a.descendWithin choose (nodes + 1) id = some id := by
  obtain ⟨hLeaf, -⟩ := Node.leaf_of_unlinked h
  rw [Arena.descendWithin, hn]
  simp [hLeaf]

theorem descend_branch {a : Arena κ} {id : NodeId} {n : Node κ} {parent : Option NodeId} {g : Nat}
    {f : Fork κ (Shape κ g)} {choose : Node κ → Nat} {right : κ → Bool}
    (hChoose : Follows choose right) (hn : a.node? id = some n)
    (h : n.unlinked = Shape.node (g + 1) parent f)
    (hLength : f.children.length = f.separators.length + 1)
    (hi : (f.separators.takeWhile right).length < f.children.length) (nodes : Nat) :
    a.descendWithin choose (nodes + 1) id = a.descendWithin choose nodes
      (Shape.id g f.children[(f.separators.takeWhile right).length]) := by
  replace h := Node.eq_of_unlinked h
  have hLeaf : n.isLeaf = false := congrArg Node.isLeaf h
  have hKeys : n.keys = f.separators := congrArg Node.keys h
  have hKids : n.children = f.children.map (Shape.id g) := congrArg Node.children h
  have hSlot : choose n = (f.separators.takeWhile right).length := by
    rw [hChoose n (by rw [hKids, hKeys, List.length_map, hLength]), hKeys]
  rw [Arena.descendWithin, hn]
  simp [hLeaf, hSlot, hKids, hi]

/-- A descent in the hole of a context. -/
theorem exists_leaf_below (cmp : κ → κ → Ordering) {fanout : Nat} (right : κ → Bool) {g h : Nat}
    (C : Context κ g h) (x : Shape κ g) (hC : C.Fits fanout) (hx : Shape.Fits fanout g x)
    (hSorted : Sorted cmp (C.before ++ (Shape.pieces g x ++ C.after)))
    (hLeft : LeftOf cmp right C.before) (hRight : RightOf cmp right C.after) :
    ∃ (D : Context κ 0 h) (p : Page κ), D.fill p = C.fill x ∧ D.Fits fanout ∧
      Shape.Fits fanout 0 p ∧ LeftOf cmp right D.before ∧ RightOf cmp right D.after ∧
      ∀ (a : Arena κ) (choose : Node κ → Nat) (nodes : Nat), Follows choose right →
        a.Holds (Shape.records h none (C.fill x)) → g < nodes →
        a.descendWithin choose nodes (Shape.id g x) = some p.id := by
  induction g with
  | zero =>
    refine ⟨C, x, rfl, hC, hx, hLeft, hRight, fun a choose nodes _ ha hNodes => ?_⟩
    obtain ⟨n, hn, hUnlinked⟩ := ha.exists_node (Shape.id 0 x)
      (Shape.node 0 C.parent x) (by simp [C.records_fill, Shape.records])
    obtain ⟨nodes, rfl⟩ := Nat.exists_eq_add_one.2 hNodes
    exact descend_leaf hn hUnlinked nodes
  | succ g ih =>
    let f : Fork κ (Shape κ g) := x
    obtain ⟨⟨hLength, -, hChildren⟩, -⟩ := id hx
    change f.children.length = f.separators.length + 1 at hLength
    have hPrefix := (f.separators.takeWhile_prefix right).length_le
    have hi : (f.separators.takeWhile right).length < f.children.length := by omega
    let fr := f.frame _ hi hLength
    let child := f.children[(f.separators.takeWhile right).length]
    have hFork : fr.fork [child] [] = x := f.frame_fork _ hi hLength
    have hPieces : Shape.pieces (g + 1) x = fr.before ++ (Shape.pieces g child ++ fr.after) := by
      rw [← Frame.pieces_one, hFork]
    have hSorted' : Sorted cmp ((Context.under fr C).before ++
        (Shape.pieces g child ++ (Context.under fr C).after)) := by
      simpa [hPieces, Context.before, Context.after] using hSorted
    have hParts : Sorted cmp fr.before ∧ Sorted cmp fr.after := by
      simp only [Sorted, Context.before, Context.after, marksOf_append,
        List.pairwise_append] at hSorted' ⊢
      exact ⟨hSorted'.1.2.1, hSorted'.2.1.2.1.1⟩
    have hFrameLeft := Fork.leftOf_frame hi hLength hParts.1
    have hFrameRight := Fork.rightOf_frame hi hLength hParts.2
    obtain ⟨D, p, hD, hDFits, hp, hDLeft, hDRight, hDescend⟩ :=
      ih (.under fr C) child (Fork.fits_frame hx hC hi hLength)
        (hChildren _ (List.getElem_mem hi)) hSorted' (hLeft.append hFrameLeft)
        (hFrameRight.append hRight)
    have hFill : (Context.under fr C).fill child = C.fill x := congrArg C.fill hFork
    refine ⟨D, p, hD.trans hFill, hDFits, hp, hDLeft, hDRight,
      fun a choose nodes hChoose ha hNodes => ?_⟩
    obtain ⟨n, hn, hUnlinked⟩ := ha.exists_node (Shape.id (g + 1) x)
      (Shape.node (g + 1) C.parent x) (by simp [C.records_fill, Shape.records_eq])
    obtain ⟨nodes, rfl⟩ := Nat.exists_eq_add_one.2 (Nat.zero_lt_of_lt hNodes)
    rw [descend_branch hChoose hn hUnlinked hLength hi]
    exact hDescend a choose nodes hChoose (hFill ▸ ha) (Nat.lt_of_succ_lt_succ hNodes)

end IndexScan

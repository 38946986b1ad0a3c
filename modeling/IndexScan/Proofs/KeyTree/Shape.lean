import IndexScan.KeyTree.Position
import IndexScan.Proofs.Multimap
import Mathlib.Algebra.BigOperators.Group.Multiset.Basic
import Mathlib.Tactic.Abel

/-!
# The shape of an ordered tree

An arena is a bag of numbered nodes; a `Shape` is the tree that they are meant to form, with the
numbers kept.  All leaves of a shape are at one depth because its type states the height.

Two views of a shape carry every proof about trees.  `records` are the numbered nodes that an
arena of this shape consists of.  `pieces` are the leaves and separators from left to right: what
a tree lists, and that its keys are in order, are facts about this one list, and dividing a
branch or growing a new root does not change it at all.

A `Context` is a shape with a hole.  Whatever happens in a leaf happens in the hole of a context,
and the division of nodes goes outwards through its frames.
-/

namespace IndexScan

/-- A leaf and its number. -/
structure Page (κ : Type) where
  id : NodeId
  entries : Multimap κ

/-- A branch over shapes of its children. -/
structure Fork (κ α : Type) where
  id : NodeId
  separators : List κ
  children : List α

/-- The shapes of a height. -/
def Shape (κ : Type) : Nat → Type
  | 0 => Page κ
  | h + 1 => Fork κ (Shape κ h)

/-- A leaf or a separator, as met from left to right. -/
inductive Piece (κ : Type)
  | page (p : Page κ)
  | separator (key : κ)

variable {κ : Type}

/-! ### From left to right -/

/-- The pieces of children with a separator after each, as far as there are separators. -/
def weave : List (List (Piece κ)) → List κ → List (Piece κ)
  | [], _ => []
  | ps :: rest, [] => ps ++ weave rest []
  | ps :: rest, s :: ss => ps ++ .separator s :: weave rest ss

/-- The pieces of children with a separator before each. -/
def weaveAfter : List κ → List (List (Piece κ)) → List (Piece κ)
  | s :: ss, ps :: rest => .separator s :: (ps ++ weaveAfter ss rest)
  | _, _ => []

theorem weave_cons_eq : ∀ (ss : List κ) (rest : List (List (Piece κ))) (ps : List (Piece κ)),
    ss.length = rest.length → weave (ps :: rest) ss = ps ++ weaveAfter ss rest
  | [], [], ps, _ => by simp [weave, weaveAfter]
  | s :: ss, qs :: rest, ps, h => by
    rw [weave, weave_cons_eq ss rest qs (by simpa using h), weaveAfter]

/-- What stands before one child and what stands after it. -/
theorem weave_hole (ls rs : List κ) (l r : List (List (Piece κ))) (ps : List (Piece κ))
    (hLeft : l.length = ls.length) (hRight : rs.length = r.length) :
    weave (l ++ ps :: r) (ls ++ rs) = weave l ls ++ (ps ++ weaveAfter rs r) := by
  induction l generalizing ls with
  | nil =>
    obtain rfl := List.length_eq_zero_iff.1 hLeft.symm
    simpa [weave] using weave_cons_eq rs r ps hRight
  | cons qs l ih =>
    cases ls with
    | nil => simp at hLeft
    | cons s ls =>
      simp only [List.cons_append, weave, List.append_assoc]
      rw [ih ls (by simpa using hLeft)]

/-- A separator may be cut out, with one child more than separators to the left of it. -/
theorem weave_cut (ls rs : List κ) (s : κ) (l r : List (List (Piece κ)))
    (hLeft : l.length = ls.length + 1) :
    weave (l ++ r) (ls ++ s :: rs) = weave l ls ++ .separator s :: weave r rs := by
  induction l generalizing ls with
  | nil => simp at hLeft
  | cons qs l ih =>
    cases ls with
    | nil =>
      obtain rfl := List.length_eq_zero_iff.1 (by simpa using hLeft : l.length = 0)
      simp [weave]
    | cons t ls =>
      simp only [List.cons_append, weave, List.append_assoc]
      rw [ih ls (by simpa using hLeft)]

namespace Piece

def page? : Piece κ → Option (Page κ)
  | page p => some p
  | separator _ => none

end Piece

def leavesOf (ps : List (Piece κ)) : List (Page κ) := ps.filterMap Piece.page?

def entriesOf (ps : List (Piece κ)) : Multimap κ := (leavesOf ps).flatMap Page.entries

@[simp] theorem leavesOf_append (ps qs : List (Piece κ)) :
    leavesOf (ps ++ qs) = leavesOf ps ++ leavesOf qs := by simp [leavesOf]

@[simp] theorem leavesOf_page (p : Page κ) (ps : List (Piece κ)) :
    leavesOf (.page p :: ps) = p :: leavesOf ps := rfl

@[simp] theorem leavesOf_separator (s : κ) (ps : List (Piece κ)) :
    leavesOf (.separator s :: ps) = leavesOf ps := rfl

@[simp] theorem leavesOf_nil : leavesOf ([] : List (Piece κ)) = [] := rfl

@[simp] theorem entriesOf_append (ps qs : List (Piece κ)) :
    entriesOf (ps ++ qs) = entriesOf ps ++ entriesOf qs := by simp [entriesOf]

@[simp] theorem entriesOf_page (p : Page κ) (ps : List (Piece κ)) :
    entriesOf (.page p :: ps) = p.entries ++ entriesOf ps := by simp [entriesOf]

@[simp] theorem entriesOf_separator (s : κ) (ps : List (Piece κ)) :
    entriesOf (.separator s :: ps) = entriesOf ps := rfl

@[simp] theorem entriesOf_nil : entriesOf ([] : List (Piece κ)) = [] := rfl

/-! ### Nodes of a shape -/

namespace Shape

def id : (h : Nat) → Shape κ h → NodeId
  | 0, p => Page.id p
  | _ + 1, f => Fork.id f

/-- The node at the top of a shape, apart from the links of leaves. -/
def node : (h : Nat) → Option NodeId → Shape κ h → Node κ
  | 0, parent, p =>
    { keys := (Page.entries p).map Prod.fst, ids := (Page.entries p).map Prod.snd, parent }
  | h + 1, parent, f =>
    { keys := Fork.separators f, children := (Fork.children f).map (id h), parent, isLeaf := false }

/-- The numbered nodes of a shape that is under a parent. -/
def records : (h : Nat) → Option NodeId → Shape κ h → Multiset (NodeId × Node κ)
  | 0, parent, p => {(id 0 p, node 0 parent p)}
  | h + 1, parent, f =>
    (id (h + 1) f, node (h + 1) parent f) ::ₘ
      ((Fork.children f).map (records h (some (Fork.id f)))).sum

/-- The numbered nodes below the top of a shape. -/
def inner : (h : Nat) → Shape κ h → Multiset (NodeId × Node κ)
  | 0, _ => 0
  | h + 1, f => ((Fork.children f).map (records h (some (Fork.id f)))).sum

/-- The leaves and separators of a shape from left to right. -/
def pieces : (h : Nat) → Shape κ h → List (Piece κ)
  | 0, p => [.page p]
  | h + 1, f => weave ((Fork.children f).map (pieces h)) (Fork.separators f)

/-- The number of keys in the top node. -/
def load : (h : Nat) → Shape κ h → Nat
  | 0, p => (Page.entries p).length
  | _ + 1, f => (Fork.separators f).length

/-- The nodes have the numbers of keys, identities and children that they may have, of which the
top node may have too many keys. -/
def FitsBelow (fanout : Nat) : (h : Nat) → Shape κ h → Prop
  | 0, p => ∀ e ∈ Page.entries p, e.2 ≠ []
  | h + 1, f =>
    (Fork.children f).length = (Fork.separators f).length + 1 ∧ Fork.separators f ≠ [] ∧
      ∀ c ∈ Fork.children f, FitsBelow fanout h c ∧ load h c < fanout

def Fits (fanout h : Nat) (T : Shape κ h) : Prop := FitsBelow fanout h T ∧ load h T < fanout

def leaf (id : NodeId) (entries : Multimap κ) : Shape κ 0 := (⟨id, entries⟩ : Page κ)

def branch {h : Nat} (id : NodeId) (separators : List κ) (children : List (Shape κ h)) :
    Shape κ (h + 1) := (⟨id, separators, children⟩ : Fork κ (Shape κ h))

section

variable {h : Nat} (i : NodeId) (es : Multimap κ) (ss : List κ) (cs : List (Shape κ h))

@[simp] theorem id_leaf : id 0 (leaf i es) = i := rfl

@[simp] theorem id_branch : id (h + 1) (branch i ss cs) = i := rfl

@[simp] theorem pieces_leaf : pieces 0 (leaf i es) = [.page ⟨i, es⟩] := rfl

theorem pieces_branch : pieces (h + 1) (branch i ss cs) = weave (cs.map (pieces h)) ss := rfl

/-- A branch may be cut in two around a separator, with one child more than separators to the
left of it. -/
theorem pieces_cut {ls : List κ} {l : List (Shape κ h)} (s : κ) (rs : List κ)
    (r : List (Shape κ h)) (new : NodeId) (hLeft : l.length = ls.length + 1) :
    pieces (h + 1) (branch i (ls ++ s :: rs) (l ++ r))
      = pieces (h + 1) (branch i ls l) ++ .separator s :: pieces (h + 1) (branch new rs r) := by
  rw [pieces_branch, pieces_branch, pieces_branch, List.map_append]
  exact weave_cut _ _ _ _ _ (by simpa using hLeft)

@[simp] theorem load_leaf : load 0 (leaf i es) = es.length := rfl

@[simp] theorem load_branch : load (h + 1) (branch i ss cs) = ss.length := rfl

theorem fitsBelow_branch (fanout : Nat) : FitsBelow fanout (h + 1) (branch i ss cs) ↔
    cs.length = ss.length + 1 ∧ ss ≠ [] ∧ ∀ c ∈ cs, Fits fanout h c := Iff.rfl

theorem records_leaf (parent : Option NodeId) :
    records 0 parent (leaf i es) = {(i, node 0 parent (leaf i es))} := rfl

theorem records_branch (parent : Option NodeId) :
    records (h + 1) parent (branch i ss cs) = (i, node (h + 1) parent (branch i ss cs)) ::ₘ
      (cs.map (records h (some i))).sum := rfl

theorem node_branch (parent : Option NodeId) :
    node (h + 1) parent (branch i ss cs)
      = { keys := ss, children := cs.map (id h), parent, isLeaf := false } := rfl

end

theorem records_eq (h : Nat) (parent : Option NodeId) (T : Shape κ h) :
    records h parent T = (id h T, node h parent T) ::ₘ inner h T := by
  cases h <;> rfl

theorem node_adopted (h : Nat) (p q : Option NodeId) (T : Shape κ h) :
    { node h p T with parent := q } = node h q T := by
  cases h <;> rfl

theorem node_keys_length (h : Nat) (p : Option NodeId) (T : Shape κ h) :
    (node h p T).keys.length = load h T := by
  cases h <;> simp [node, load]

@[simp] theorem node_parent (h : Nat) (p : Option NodeId) (T : Shape κ h) :
    (node h p T).parent = p := by
  cases h <;> rfl

/-- There is a node on every level. -/
theorem height_lt_card {fanout : Nat} : ∀ (h : Nat) (parent : Option NodeId) (T : Shape κ h),
    FitsBelow fanout h T → h < (records h parent T).card
  | 0, _, _, _ => Nat.zero_lt_one
  | h + 1, parent, f, hf => by
    obtain ⟨hLength, -, hChildren⟩ := hf
    obtain ⟨c, cs, hCons⟩ := List.exists_cons_of_length_eq_add_one hLength
    have hBelow := height_lt_card h (some (Fork.id f)) c (hChildren c (by simp [hCons])).1
    rw [records, hCons, List.map_cons, List.sum_cons, Multiset.card_cons, Multiset.card_add]
    omega

end Shape

/-! ### Shapes with a hole -/

/-- A branch with a hole among its children. -/
structure Frame (κ : Type) (g : Nat) where
  id : NodeId
  left : List (Shape κ g)
  leftSeparators : List κ
  rightSeparators : List κ
  right : List (Shape κ g)
  left_length : left.length = leftSeparators.length
  right_length : rightSeparators.length = right.length

/-- A shape of height `h` with a hole of height `g`. -/
inductive Context (κ : Type) : Nat → Nat → Type
  | root {h : Nat} : Context κ h h
  | under {g h : Nat} (fr : Frame κ g) (above : Context κ (g + 1) h) : Context κ g h

namespace Frame

variable {g : Nat}

/-- The branch with children and separators between them in its hole. -/
def fork (fr : Frame κ g) (xs : List (Shape κ g)) (ss : List κ) : Shape κ (g + 1) :=
  .branch fr.id (fr.leftSeparators ++ (ss ++ fr.rightSeparators)) (fr.left ++ (xs ++ fr.right))

def before (fr : Frame κ g) : List (Piece κ) :=
  weave (fr.left.map (Shape.pieces g)) fr.leftSeparators

def after (fr : Frame κ g) : List (Piece κ) :=
  weaveAfter fr.rightSeparators (fr.right.map (Shape.pieces g))

theorem pieces_one (fr : Frame κ g) (x : Shape κ g) :
    Shape.pieces (g + 1) (fr.fork [x] []) = fr.before ++ (Shape.pieces g x ++ fr.after) := by
  simp only [fork, Shape.pieces_branch, List.map_append, List.map_cons, List.nil_append,
    List.singleton_append]
  exact weave_hole _ _ _ _ _ (by simp [fr.left_length]) (by simp [fr.right_length])

theorem pieces_two (fr : Frame κ g) (x y : Shape κ g) (s : κ) :
    Shape.pieces (g + 1) (fr.fork [x, y] [s])
      = fr.before ++ ((Shape.pieces g x ++ .separator s :: Shape.pieces g y) ++ fr.after) := by
  simp only [fork, Shape.pieces_branch, List.map_append, List.map_cons, List.cons_append,
    List.nil_append, List.append_assoc]
  exact weave_hole _ (s :: fr.rightSeparators) _
    (Shape.pieces g y :: fr.right.map (Shape.pieces g)) _ (by simp [fr.left_length])
    (by simp [fr.right_length])

@[simp] theorem id_fork (fr : Frame κ g) (xs : List (Shape κ g)) (ss : List κ) :
    Shape.id (g + 1) (fr.fork xs ss) = fr.id := rfl

theorem records_fork (fr : Frame κ g) (parent : Option NodeId) (xs : List (Shape κ g))
    (ss : List κ) : Shape.records (g + 1) parent (fr.fork xs ss)
      = (fr.id, Shape.node (g + 1) parent (fr.fork xs ss)) ::ₘ
        ((xs.map (Shape.records g (some fr.id))).sum +
          ((fr.left ++ fr.right).map (Shape.records g (some fr.id))).sum) := by
  simp only [fork, Shape.records_branch, List.map_append, List.sum_append]
  congr 1
  abel

end Frame

namespace Context

/-- The shape with the hole filled. -/
def fill : {g h : Nat} → Context κ g h → Shape κ g → Shape κ h
  | _, _, root, x => x
  | _, _, under fr above, x => above.fill (fr.fork [x] [])

/-- The number of the branch with the hole. -/
def parent : {g h : Nat} → Context κ g h → Option NodeId
  | _, _, root => none
  | _, _, under fr _ => some fr.id

/-- What stands left of the hole. -/
def before : {g h : Nat} → Context κ g h → List (Piece κ)
  | _, _, root => []
  | _, _, under fr above => above.before ++ fr.before

/-- What stands right of the hole. -/
def after : {g h : Nat} → Context κ g h → List (Piece κ)
  | _, _, root => []
  | _, _, under fr above => fr.after ++ above.after

/-- The numbered nodes around the hole, in which the node with the given number is. -/
def records : {g h : Nat} → Context κ g h → NodeId → Multiset (NodeId × Node κ)
  | _, _, root, _ => 0
  | g, _, under fr above, hole =>
    above.records fr.id + (fr.id,
      { keys := fr.leftSeparators ++ fr.rightSeparators
        children := fr.left.map (Shape.id g) ++ hole :: fr.right.map (Shape.id g)
        parent := above.parent, isLeaf := false }) ::ₘ
      ((fr.left ++ fr.right).map (Shape.records g (some fr.id))).sum

/-- The nodes around the hole have the numbers of keys and children that they may have. -/
def Fits (fanout : Nat) : {g h : Nat} → Context κ g h → Prop
  | _, _, root => True
  | g, _, under fr above =>
    (∀ c ∈ fr.left ++ fr.right, Shape.Fits fanout g c) ∧
      fr.leftSeparators ++ fr.rightSeparators ≠ [] ∧
      (fr.leftSeparators ++ fr.rightSeparators).length < fanout ∧ above.Fits fanout

variable {g h : Nat}

theorem le : {g h : Nat} → Context κ g h → g ≤ h
  | _, _, root => Nat.le_refl _
  | _, _, under _ above => Nat.le_of_succ_le above.le

theorem pieces_fill (C : Context κ g h) (x : Shape κ g) :
    Shape.pieces h (C.fill x) = C.before ++ (Shape.pieces g x ++ C.after) := by
  induction C with
  | root => simp [fill, before, after]
  | under fr above ih => simp [fill, ih, Frame.pieces_one, before, after]

theorem records_under (fr : Frame κ g) (above : Context κ (g + 1) h) (x : Shape κ g) :
    (under fr above).records (Shape.id g x) = above.records fr.id +
      (fr.id, Shape.node (g + 1) above.parent (fr.fork [x] [])) ::ₘ
        ((fr.left ++ fr.right).map (Shape.records g (some fr.id))).sum := by
  simp [records, Frame.fork, Shape.node_branch]

theorem records_fill (C : Context κ g h) (x : Shape κ g) :
    Shape.records h none (C.fill x)
      = C.records (Shape.id g x) + Shape.records g C.parent x := by
  induction C with
  | root => simp [fill, records, parent]
  | under fr above ih =>
    rw [fill, ih, fr.records_fork, fr.id_fork, records_under]
    simp only [parent, List.map_cons, List.map_nil, List.sum_cons, List.sum_nil,
      ← Multiset.singleton_add]
    abel

theorem fits_fill {fanout : Nat} (C : Context κ g h) (x : Shape κ g) (hC : C.Fits fanout)
    (hx : Shape.Fits fanout g x) : Shape.Fits fanout h (C.fill x) := by
  induction C with
  | root => exact hx
  | under fr above ih =>
    obtain ⟨hSiblings, hNonempty, hLength, hAbove⟩ := hC
    refine ih _ hAbove ⟨(Shape.fitsBelow_branch ..).2 ⟨?_, by simpa using hNonempty, ?_⟩, ?_⟩
    · simp [fr.left_length, fr.right_length, Nat.add_assoc]
    · intro c hc
      simp only [List.singleton_append, List.mem_append, List.mem_cons] at hc
      rcases hc with hc | rfl | hc
      · exact hSiblings c (List.mem_append_left _ hc)
      · exact hx
      · exact hSiblings c (List.mem_append_right _ hc)
    · simpa [Frame.fork] using hLength

end Context

end IndexScan

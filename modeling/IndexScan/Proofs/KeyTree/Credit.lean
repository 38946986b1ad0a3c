import IndexScan.Proofs.KeyTree.Division
import Mathlib.Algebra.Group.Action.Defs
import Mathlib.Algebra.Order.BigOperators.Group.List
import Mathlib.Algebra.Order.Group.Nat

/-!
# What a shape has been paid for

Nothing is ever joined, so a tree may be high and almost empty.  Its height is bounded by what it
has been given all the same: a leaf is charged for every key it has and for half the fan-out at
least, which is what it had when it was cut off.  Cutting a full leaf in two leaves the charge as
it is, dividing a branch does not touch the leaves, and forgetting keys makes the charge no larger.

Branches are divided in the middle too and never lose a child, so all of them but the top one have
half as many children as the fan-out, rounded up.
-/

namespace IndexScan

variable {κ : Type} {g h : Nat}

/-- What leaves are charged: each its keys, or half the fan-out if that is more. -/
def charge (fanout : Nat) (ps : List (Piece κ)) : Nat :=
  ((leavesOf ps).map fun p => max p.entries.length (fanout / 2)).sum

section

variable (fanout : Nat)

@[simp] theorem charge_append (ps qs : List (Piece κ)) :
    charge fanout (ps ++ qs) = charge fanout ps + charge fanout qs := by simp [charge]

@[simp] theorem charge_page (p : Page κ) (ps : List (Piece κ)) :
    charge fanout (.page p :: ps) = max p.entries.length (fanout / 2) + charge fanout ps := by
  simp [charge]

@[simp] theorem charge_separator (s : κ) (ps : List (Piece κ)) :
    charge fanout (.separator s :: ps) = charge fanout ps := rfl

@[simp] theorem charge_nil : charge fanout ([] : List (Piece κ)) = 0 := rfl

theorem leaves_mul_le_charge (ps : List (Piece κ)) :
    (leavesOf ps).length * (fanout / 2) ≤ charge fanout ps := by
  rw [charge, ← List.length_map (f := fun p : Page κ => max p.entries.length (fanout / 2)),
    ← smul_eq_mul]
  refine List.card_nsmul_le_sum _ _ fun c hc => ?_
  obtain ⟨p, -, rfl⟩ := List.mem_map.1 hc
  exact Nat.le_max_right ..

end

namespace Shape

/-- What a shape is charged. A lone leaf has never been cut off, so it is charged its keys only. -/
def credit (fanout : Nat) : (h : Nat) → Shape κ h → Nat
  | 0, p => (Page.entries p).length
  | h + 1, T => charge fanout (pieces (h + 1) T)

/-- Every branch has half as many children as the fan-out, but of the top one only `least` are
asked. -/
def Ample (fanout : Nat) : Nat → (h : Nat) → Shape κ h → Prop
  | _, 0, _ => True
  | least, h + 1, f =>
    least ≤ (Fork.children f).length ∧ ∀ c ∈ Fork.children f, Ample fanout ((fanout + 1) / 2) h c

variable {fanout : Nat}

theorem ample_branch (least : Nat) (i : NodeId) (ss : List κ) (cs : List (Shape κ h)) :
    Ample fanout least (h + 1) (branch i ss cs) ↔
      least ≤ cs.length ∧ ∀ c ∈ cs, Ample fanout ((fanout + 1) / 2) h c := Iff.rfl

theorem credit_eq_charge (hHeight : 0 < h) (T : Shape κ h) :
    credit fanout h T = charge fanout (pieces h T) := by
  cases h with
  | zero => cases hHeight
  | succ h => rfl

/-- A leaf that is about to be cut in two is charged its keys in any case. -/
theorem credit_of_full {T : Shape κ h} (hLoad : load h T = fanout) :
    credit fanout h T = charge fanout (pieces h T) := by
  cases h with
  | zero =>
    have hKeys : (Page.entries T).length = fanout := hLoad
    have hCharge : charge fanout (pieces 0 T) = max (Page.entries T).length (fanout / 2) :=
      charge_page fanout T []
    rw [hCharge, credit, hKeys]
    omega
  | succ h => rfl

theorem mul_le_leaves {f : Shape κ (h + 1)} {width k : Nat}
    (hWidth : width ≤ (Fork.children f).length)
    (hEach : ∀ c ∈ Fork.children f, k ≤ (leavesOf (pieces h c)).length) :
    width * k ≤ (leavesOf (pieces (h + 1) f)).length := by
  have hSum := List.card_nsmul_le_sum ((Fork.children f).map fun c => (leavesOf (pieces h c)).length)
    k fun n hn => by
      obtain ⟨c, hc, rfl⟩ := List.mem_map.1 hn
      exact hEach c hc
  rw [List.length_map, smul_eq_mul] at hSum
  rw [pieces, leavesOf_weave, List.flatMap_map, List.length_flatMap]
  exact (Nat.mul_le_mul_right k hWidth).trans hSum

/-- There are as many leaves as the branches are ample. -/
theorem Ample.pow_le_leaves : ∀ {h : Nat} {T : Shape κ h},
    Ample fanout ((fanout + 1) / 2) h T → ((fanout + 1) / 2) ^ h ≤ (leavesOf (pieces h T)).length
  | 0, _, _ => Nat.le_refl 1
  | h + 1, f, ⟨hWidth, hChildren⟩ => by
    rw [Nat.pow_succ, Nat.mul_comm]
    exact mul_le_leaves hWidth fun c hc => (hChildren c hc).pow_le_leaves

end Shape

namespace Context

/-- The number of children that are asked of a branch in the hole. -/
def least (fanout : Nat) : {g h : Nat} → Context κ g h → Nat
  | _, _, root => 0
  | _, _, under _ _ => (fanout + 1) / 2

/-- The branches around the hole have enough children. -/
def Ample (fanout : Nat) : {g h : Nat} → Context κ g h → Prop
  | _, _, root => True
  | g, _, under fr above =>
    above.least fanout ≤ (fr.left ++ fr.right).length + 1 ∧
      (∀ c ∈ fr.left ++ fr.right, Shape.Ample fanout ((fanout + 1) / 2) g c) ∧ above.Ample fanout

variable {fanout : Nat}

theorem ample_fill (C : Context κ g h) (x : Shape κ g) :
    Shape.Ample fanout 0 h (C.fill x) ↔ C.Ample fanout ∧ Shape.Ample fanout (C.least fanout) g x := by
  induction C with
  | root => simp [fill, Ample, least]
  | under fr above ih =>
    have hWidth : (fr.left ++ ([x] ++ fr.right)).length = (fr.left ++ fr.right).length + 1 := by
      simp [Nat.add_assoc]
    rw [fill, ih, Frame.fork, Shape.ample_branch, hWidth, Ample, least]
    simp only [List.mem_append, List.mem_singleton]
    grind

/-- What is in a leaf does not matter to the branches. -/
theorem ample_fill_leaf {C : Context κ 0 h} {id : NodeId} {es : Multimap κ} (es' : Multimap κ)
    (hAmple : Shape.Ample fanout 0 h (C.fill (.leaf id es))) :
    Shape.Ample fanout 0 h (C.fill (.leaf id es')) :=
  (C.ample_fill _).2 ⟨((C.ample_fill _).1 hAmple).1, trivial⟩

/-- The charge of a shape changes with what a leaf of it is charged. -/
theorem credit_fill_leaf_le (fanout : Nat) (C : Context κ 0 h) (id : NodeId)
    {es es' : Multimap κ} {k : Nat} (hKeys : es'.length ≤ es.length + k) :
    Shape.credit fanout h (C.fill (.leaf id es'))
      ≤ Shape.credit fanout h (C.fill (.leaf id es)) + k := by
  cases C with
  | root => exact hKeys
  | under fr above =>
    have hHeight := Nat.lt_of_succ_le above.le
    rw [Shape.credit_eq_charge hHeight, Shape.credit_eq_charge hHeight, pieces_fill, pieces_fill]
    simp only [charge_append, Shape.pieces_leaf, charge_page, charge_nil]
    omega

end Context

end IndexScan

import IndexScan.Row

/-! # Nodes of an ordered tree

A node lists keys in ascending order. A leaf has a list of row identities for every key. In a
branch the keys are separators between children: what is below a separator is to the left of
it, all else to the right. Nodes refer to each other by number, which may lead nowhere; so
whatever follows a number, or counts into a list, is a checked computation.
-/

namespace IndexScan

/-- The number of a node. -/
abbrev NodeId := Nat

/-- A computation that has no result if a number leads nowhere or a walk never ends. -/
abbrev Checked (α : Type) := Option α

structure Node (κ : Type) where
  keys : List κ := []
  /-- The identities recorded under each key of a leaf. -/
  ids : List (List RowId) := []
  children : List NodeId := []
  /-- The leaf to the right. -/
  next : Option NodeId := none
  /-- The leaf to the left. -/
  previous : Option NodeId := none
  parent : Option NodeId := none
  isLeaf : Bool := true
  deriving Repr

namespace Node

variable {κ : Type}

/-- The place of a key among the keys: after those below it. -/
def slot (cmp : κ → κ → Ordering) (key : κ) (n : Node κ) : Nat :=
  (n.keys.takeWhile (cmp · key == .lt)).length

/-- The place of a key that is there. -/
def find? (cmp : κ → κ → Ordering) (key : κ) (n : Node κ) : Option Nat :=
  if n.keys[n.slot cmp key]?.any (cmp · key == .eq) then some (n.slot cmp key) else none

/-- Records an identity under the key at a place of a leaf, or puts the key there. -/
def insertAt (cmp : κ → κ → Ordering) (i : Nat) (key : κ) (id : RowId) (n : Node κ) :
    Checked (Node κ) :=
  if n.keys[i]?.any (cmp · key == .eq) then do
    let ids ← n.ids[i]?
    return { n with ids := n.ids.set i (ids ++ [id]) }
  else if i ≤ n.keys.length ∧ i ≤ n.ids.length then
    some { n with keys := n.keys.insertIdx i key, ids := n.ids.insertIdx i [id] }
  else none

/-- Forgets one identity under the key at a place of a leaf, or all; the key goes away with the
last one. Gives the number of identities forgotten. -/
def removeAt (i : Nat) (id? : Option RowId) (n : Node κ) : Checked (Nat × Node κ) := do
  let ids ← n.ids[i]?
  let rest := id?.elim [] fun id => ids.filter (· != id)
  if rest.isEmpty then
    let _ ← n.keys[i]?
    return (ids.length, { n with keys := n.keys.eraseIdx i, ids := n.ids.eraseIdx i })
  else return (ids.length - rest.length, { n with ids := n.ids.set i rest })

/-- The child right of the separators that `right` holds for, which are the first ones. -/
def route (right : κ → Bool) (n : Node κ) : Nat :=
  min (n.keys.takeWhile right).length (n.children.length - 1)

end Node

end IndexScan

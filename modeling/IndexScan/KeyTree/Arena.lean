import IndexScan.KeyTree.Node

/-! # The nodes of an ordered tree

All nodes of a tree are in one arena, where they are numbered in the order in which they were
made. A node that has as many keys as the fan-out is divided: its right half becomes a new node,
and the separator of the halves goes to the branch above, which may be too large after that.
Nothing is ever joined: erasing may leave leaves empty, and separators that are keys of no leaf.

A way from node to node that is longer than there are nodes comes back to where it was and never
ends, so it has no result.
-/

namespace IndexScan

/-- Why a key index refuses an identity. -/
inductive KeyFault
  | duplicateKey
  deriving DecidableEq, Repr

def KeyFault.message : KeyFault → String
  | duplicateKey => "Duplicate key in unique index"

/-- Whether a key is to the right of a separator. -/
def goesRight {κ : Type} (cmp : κ → κ → Ordering) (key separator : κ) : Bool :=
  cmp key separator != .lt

structure Arena (κ : Type) where
  nodes : Array (Node κ)
  root : NodeId
  deriving Repr

namespace Arena

variable {κ : Type}

/-- The arena of one empty leaf. -/
def empty : Arena κ := ⟨#[{}], 0⟩

def node? (a : Arena κ) (id : NodeId) : Checked (Node κ) := a.nodes[id]?

/-- Adds a node, and gives its number. -/
def alloc (a : Arena κ) (n : Node κ) : NodeId × Arena κ :=
  (a.nodes.size, { a with nodes := a.nodes.push n })

def update (a : Arena κ) (id : NodeId) (f : Node κ → Node κ) : Checked (Arena κ) :=
  if id < a.nodes.size then some { a with nodes := a.nodes.modify id f } else none

/-- The leaf that is reached from a node, by the children chosen on a way of so many nodes at
most. -/
def descendWithin (a : Arena κ) (choose : Node κ → Nat) : Nat → NodeId → Checked NodeId
  | 0, _ => none
  | nodes + 1, id => do
    let n ← a.node? id
    if n.isLeaf then return id
    let child ← n.children[choose n]?
    a.descendWithin choose nodes child

/-- The leaf that is reached from a node by the children chosen on the way. -/
def descend (a : Arena κ) (choose : Node κ → Nat) (id : NodeId) : Checked NodeId :=
  a.descendWithin choose a.nodes.size id

/-- The number of nodes on the way from a node to its leftmost leaf, if there are not more than
so many. -/
def depthWithin (a : Arena κ) : Nat → NodeId → Checked Nat
  | 0, _ => none
  | nodes + 1, id => do
    let n ← a.node? id
    if n.isLeaf then return 1
    let child ← n.children[0]?
    let depth ← a.depthWithin nodes child
    return depth + 1

/-- The number of nodes on the way from the root to a leaf. -/
def depth (a : Arena κ) : Checked Nat := a.depthWithin a.nodes.size a.root

/-- The leaf that is responsible for a key. -/
def leafFor (cmp : κ → κ → Ordering) (key : κ) (a : Arena κ) : Checked NodeId :=
  a.descend (Node.route (goesRight cmp key)) a.root

/-- Puts one leaf to the left of another, if there is another. -/
def relink (a : Arena κ) (previous : NodeId) : Option NodeId → Checked (Arena κ)
  | none => some a
  | some id => a.update id fun m => { m with previous := some previous }

/-- Cuts off the right half of a leaf. Gives the separator and the new leaf. -/
def splitLeaf (a : Arena κ) (id : NodeId) : Checked (κ × NodeId × Arena κ) := do
  let n ← a.node? id
  let mid := n.keys.length / 2
  if n.ids.length < mid then none
  let separator ← n.keys[mid]?
  let (new, a) := a.alloc {
    keys := n.keys.drop mid, ids := n.ids.drop mid, next := n.next, previous := some id,
    parent := n.parent }
  let a ← a.relink new n.next
  let a ← a.update id fun m => { m with
    keys := n.keys.take mid, ids := n.ids.take mid, next := some new }
  return (separator, new, a)

/-- Makes a node the parent of others. -/
def adopt (a : Arena κ) (parent : NodeId) : List NodeId → Checked (Arena κ)
  | [] => some a
  | child :: rest => do
    let a ← a.update child fun m => { m with parent := some parent }
    a.adopt parent rest

/-- Cuts off the right half of a branch. Gives the separator and the new branch. -/
def splitBranch (a : Arena κ) (id : NodeId) : Checked (κ × NodeId × Arena κ) := do
  let n ← a.node? id
  let mid := n.keys.length / 2
  let separator ← n.keys[mid]?
  if n.children.length < mid + 1 then none
  let moved := n.children.drop (mid + 1)
  let a ← a.update id fun m => { m with
    keys := n.keys.take mid, children := n.children.take (mid + 1) }
  let (new, a) := a.alloc {
    keys := n.keys.drop (mid + 1), children := moved, parent := n.parent, isLeaf := false }
  let a ← a.adopt new moved
  return (separator, new, a)

/-- Puts a new node right of the one it was cut off from: into the branch above, which is given,
or under a new root. -/
def attach (cmp : κ → κ → Ordering) (a : Arena κ) (left : NodeId) (separator : κ)
    (right : NodeId) : Checked (Option NodeId × Arena κ) := do
  let n ← a.node? left
  match n.parent with
  | none =>
    let (root, a) := a.alloc { keys := [separator], children := [left, right], isLeaf := false }
    let a ← a.adopt root [left, right]
    return (none, { a with root })
  | some above =>
    let m ← a.node? above
    let i := m.route (goesRight cmp separator)
    if m.keys.length < i ∨ m.children.length < i + 1 then none
    let a ← a.update above fun m => { m with
      keys := m.keys.insertIdx i separator, children := m.children.insertIdx (i + 1) right }
    let a ← a.adopt above [right]
    return (some above, a)

/-- Divides a node that is too large, and then the branches above as far as need be, if these are
not more than so many nodes. -/
def settleWithin (cmp : κ → κ → Ordering) (fanout : Nat) : Nat → Arena κ → NodeId →
    Checked (Arena κ)
  | 0, _, _ => none
  | nodes + 1, a, id => do
    let n ← a.node? id
    if n.keys.length < fanout then return a
    let (separator, new, a) ← if n.isLeaf then a.splitLeaf id else a.splitBranch id
    match ← a.attach cmp id separator new with
    | (none, a) => return a
    | (some above, a) => settleWithin cmp fanout nodes a above

/-- Divides a node that is too large, and then the branches above as far as need be. -/
def settle (cmp : κ → κ → Ordering) (fanout : Nat) (a : Arena κ) (id : NodeId) :
    Checked (Arena κ) := settleWithin cmp fanout a.nodes.size a id

/-- Records an identity under a key. -/
def insert (cmp : κ → κ → Ordering) (fanout : Nat) (unique : Bool) (a : Arena κ) (key : κ)
    (id : RowId) : Checked (Except KeyFault Unit × Arena κ) := do
  let leaf ← a.leafFor cmp key
  let n ← a.node? leaf
  if unique && (n.find? cmp key).isSome then return (.error .duplicateKey, a)
  let n ← n.insertAt cmp (n.slot cmp key) key id
  let a ← a.update leaf fun _ => n
  return (.ok (), ← a.settle cmp fanout leaf)

/-- Forgets one identity under a key, or the key. Gives the number of identities forgotten. -/
def erase (cmp : κ → κ → Ordering) (a : Arena κ) (key : κ) (id? : Option RowId) :
    Checked (Nat × Arena κ) := do
  let leaf ← a.leafFor cmp key
  let n ← a.node? leaf
  match n.find? cmp key with
  | none => return (0, a)
  | some i =>
    let (removed, n) ← n.removeAt i id?
    return (removed, ← a.update leaf fun _ => n)

/-- The identities recorded under a key, in the order in which they came. -/
def get (cmp : κ → κ → Ordering) (a : Arena κ) (key : κ) : Checked (List RowId) := do
  let n ← a.node? (← a.leafFor cmp key)
  match n.find? cmp key with
  | none => return []
  | some i => n.ids[i]?

def contains (cmp : κ → κ → Ordering) (a : Arena κ) (key : κ) : Checked Bool := do
  let n ← a.node? (← a.leafFor cmp key)
  return (n.find? cmp key).isSome

end Arena

end IndexScan

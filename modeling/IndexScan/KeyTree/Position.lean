import IndexScan.KeyTree.Arena

/-! # Positions in an ordered tree

A position is on one identity under one key of one leaf. From there it moves in both directions,
and passes over empty leaves.
-/

namespace IndexScan

/-- A place in an arena: the identity with a number, under the key with a number, of a leaf. -/
structure Position where
  leaf : NodeId
  key : Nat
  number : Nat
  deriving DecidableEq, Repr

namespace Arena

variable {κ : Type}

/-- The first position of a leaf from the key with the given number on, or of the leaves after
it, among so many leaves. -/
def forwardWithin (a : Arena κ) : Nat → NodeId → Nat → Checked (Option Position)
  | 0, _, _ => none
  | leaves + 1, leaf, key => do
    let n ← a.node? leaf
    if key < n.keys.length then return some ⟨leaf, key, 0⟩
    match n.next with
    | none => return none
    | some next => a.forwardWithin leaves next 0

/-- The first position of a leaf from the key with the given number on, or of the leaves after
it. -/
def forwardFrom (a : Arena κ) (leaf : NodeId) (key : Nat) : Checked (Option Position) :=
  a.forwardWithin a.nodes.size leaf key

/-- The last position of a leaf or of the leaves before it, among so many leaves. -/
def backwardWithin (a : Arena κ) : Nat → NodeId → Checked (Option Position)
  | 0, _ => none
  | leaves + 1, leaf => do
    let n ← a.node? leaf
    match n.ids.getLast? with
    | some ids => return some ⟨leaf, n.keys.length - 1, ids.length - 1⟩
    | none =>
      match n.previous with
      | none => return none
      | some previous => a.backwardWithin leaves previous

/-- The last position of a leaf or of the leaves before it. -/
def backwardFrom (a : Arena κ) (leaf : NodeId) : Checked (Option Position) :=
  a.backwardWithin a.nodes.size leaf

/-- The position of the first identity. -/
def first (a : Arena κ) : Checked (Option Position) := do
  a.forwardFrom (← a.descend (fun _ => 0) a.root) 0

/-- The position of the last identity. -/
def last (a : Arena κ) : Checked (Option Position) := do
  a.backwardFrom (← a.descend (fun n => n.children.length - 1) a.root)

/-- The position of the first identity whose key is not `below`, which has to hold for the keys
up to some point in the order and for none after it. -/
def seek (a : Arena κ) (below : κ → Bool) : Checked (Option Position) := do
  let leaf ← a.descend (Node.route below) a.root
  let n ← a.node? leaf
  a.forwardFrom leaf (n.keys.takeWhile below).length

def next (a : Arena κ) (p : Position) : Checked (Option Position) := do
  let n ← a.node? p.leaf
  let ids ← n.ids[p.key]?
  if p.number + 1 < ids.length then return some { p with number := p.number + 1 }
  a.forwardFrom p.leaf (p.key + 1)

def previous (a : Arena κ) (p : Position) : Checked (Option Position) := do
  if 0 < p.number then return some { p with number := p.number - 1 }
  let n ← a.node? p.leaf
  if 0 < p.key then
    let ids ← n.ids[p.key - 1]?
    return some ⟨p.leaf, p.key - 1, ids.length - 1⟩
  match n.previous with
  | none => return none
  | some previous => a.backwardFrom previous

/-- The identity at a position, with its key. -/
def pair (a : Arena κ) (p : Position) : Checked (κ × RowId) := do
  let n ← a.node? p.leaf
  let key ← n.keys[p.key]?
  let ids ← n.ids[p.key]?
  let id ← ids[p.number]?
  return (key, id)

/-- The number of identities that are recorded in the nodes. -/
def total (a : Arena κ) : Nat := (a.nodes.toList.flatMap fun n => n.ids.flatten).length

/-- The identities that are passed when one goes on from a position by single moves, if they are
not more than so many. -/
def walkWithin (a : Arena κ) (move : Position → Checked (Option Position)) :
    Nat → Option Position → Checked (List (κ × RowId))
  | _, none => some []
  | 0, some _ => none
  | ids + 1, some p => do
    let pair ← a.pair p
    let rest ← a.walkWithin move ids (← move p)
    return pair :: rest

/-- The identities that are passed when one goes on from a position by single moves. -/
def walk (a : Arena κ) (move : Position → Checked (Option Position)) (p : Option Position) :
    Checked (List (κ × RowId)) := a.walkWithin move a.total p

end Arena

end IndexScan

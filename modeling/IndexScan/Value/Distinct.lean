import IndexScan.Value.Digest
import Std.Data.HashSet

/-! # First occurrences

Of equal members of a list, in the sense of its type's equality, only the first is kept. What
has been seen is carried along, so that one list after the other can be gone through.
-/

namespace IndexScan.Distinct

variable {α : Type} [BEq α] [Hashable α]

/-- The members that have not been seen, each once, and what has been seen after them. -/
def unseen : List α → Std.HashSet α → List α × Std.HashSet α
  | [], seen => ([], seen)
  | a :: rest, seen =>
    if seen.contains a then unseen rest seen
    else
      let (fresh, seen) := unseen rest (seen.insert a)
      (a :: fresh, seen)

/-- The first occurrences in a list. -/
def ofList (l : List α) : List α := (unseen l ∅).1

end IndexScan.Distinct

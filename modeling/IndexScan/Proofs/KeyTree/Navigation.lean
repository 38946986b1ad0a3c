import IndexScan.Proofs.KeyTree.Soundness

/-!
# Finding one's way in a tree

The positions of a tree are the places of its list, counted by single moves from the first one
(`place`).  Both ends, both directions and every search agree on them: the list `located` of the
arena is behind all answers, and a move is a step to the next or the previous member of it.
-/

namespace IndexScan

variable {κ : Type} {cmp : κ → κ → Ordering}

/-- Every position on an identity is in the list that is traversed. -/
theorem Arena.Represents.exists_traverses_all [Std.TransCmp cmp] {a : Arena κ} {P : κ → Prop}
    {m : Multimap κ} {fanout : Nat} (hm : a.Represents cmp fanout P m) :
    ∃ xs, a.Traverses cmp P xs ∧
      ∀ p, (a.pair p).isSome → ∃ l x r, xs = l ++ x :: r ∧ x.1 = p := by
  obtain ⟨h, T, hd, hT, rfl, hP⟩ := hm
  exact ⟨_, hd.traverses hT hP, fun p hp => hd.exists_located hT hp⟩

namespace KeyTree

/-- The position after so many moves from the first one. -/
def place (t : KeyTree κ cmp) : Nat → Option Position
  | 0 => t.first?
  | n + 1 => (t.place n).bind t.next?

/-- Positions, searches and both directions agree with the list of a tree. -/
structure Navigable (t : KeyTree κ cmp) : Prop where
  /-- Whether there is a position is always known. -/
  answered : t.arena.first = some t.first? ∧ t.arena.last = some t.last? ∧
    ∀ p, (t.pair? p).isSome → t.arena.next p = some (t.next? p) ∧
      t.arena.previous p = some (t.previous? p)
  first_eq_none : t.first? = none ↔ t.toList = []
  last_eq_none : t.last? = none ↔ t.toList = []
  last_eq : t.last? = t.place (t.toList.length - 1)
  /-- Moving on from the first position, one passes the list and nothing else. -/
  pair_place : ∀ n, (t.place n).bind t.pair? = t.toList[n]?
  place_eq_none : ∀ n, t.place n = none ↔ t.toList.length ≤ n
  exists_place : ∀ p, (t.pair? p).isSome → ∃ n, t.place n = some p
  previous_first : ∀ p, t.first? = some p → t.previous? p = none
  previous_next : ∀ p q, (t.pair? p).isSome → t.next? p = some q → t.previous? q = some p
  next_previous : ∀ p q, (t.pair? q).isSome → t.previous? q = some p → t.next? p = some q
  reversed : t.toListReversed = t.toList.reverse
  /-- A search whose answer turns from yes to no once ends at the first no. -/
  seek : ∀ below : κ → Bool, (∀ k l, (cmp k l).isLE → below l = true → below k = true) →
    t.arena.seek below = some (t.seek? below) ∧
      t.seek? below = t.place (t.toList.takeWhile (below ·.1)).length ∧
      t.toListFrom below = t.toList.dropWhile (below ·.1)

section

variable {t : KeyTree κ cmp} {P : κ → Prop} {xs l r : List (Located κ)} {x : Located κ}

theorem next?_of_traverses (hx : t.arena.Traverses cmp P xs) (hSplit : xs = l ++ x :: r) :
    t.next? x.1 = r.head?.map Prod.fst := by
  rw [next?, hx.next l x r hSplit, Option.join_some]

theorem previous?_of_traverses (hx : t.arena.Traverses cmp P xs) (hSplit : xs = l ++ x :: r) :
    t.previous? x.1 = l.getLast?.map Prod.fst := by
  rw [previous?, hx.previous l x r hSplit, Option.join_some]

/-- The places are the positions of the list. -/
theorem place_of_traverses (hx : t.arena.Traverses cmp P xs) (n : Nat) :
    t.place n = xs[n]?.map Prod.fst := by
  induction n with
  | zero => rw [place, first?, hx.first, Option.join_some, List.head?_eq_getElem?]
  | succ n ih =>
    rw [place, ih]
    rcases Nat.lt_or_ge n xs.length with hn | hn
    · have hSplit : xs = xs.take n ++ xs[n] :: xs.drop (n + 1) := by simp
      rw [List.getElem?_eq_getElem hn, Option.map_some, Option.bind_some,
        next?_of_traverses hx hSplit, List.head?_drop]
    · rw [List.getElem?_eq_none hn, List.getElem?_eq_none (Nat.le_succ_of_le hn)]
      rfl

/-- A search enters the list behind what is below. -/
theorem seek?_of_traverses (hx : t.arena.Traverses cmp (fun _ => True) xs) {below : κ → Bool}
    (hBelow : ∀ k l, (cmp k l).isLE → below l = true → below k = true) :
    t.arena.seek below = some (t.seek? below) ∧
      t.seek? below = t.place (t.toList.takeWhile (below ·.1)).length ∧
      t.toListFrom below = t.toList.dropWhile (below ·.1) := by
  have hSeek := hx.seek below fun k l _ _ => hBelow k l
  have hCount : (t.toList.takeWhile (below ·.1)).length
      = (xs.takeWhile (below ·.2.1)).length := by
    rw [toList_of_traverses hx, List.takeWhile_map, List.length_map]
    rfl
  have hHead : (xs.dropWhile (below ·.2.1)).head? = xs[(xs.takeWhile (below ·.2.1)).length]? := by
    rw [← drop_length_takeWhile, List.head?_drop]
  have hAnswer : t.seek? below = (xs.dropWhile (below ·.2.1)).head?.map Prod.fst := by
    rw [seek?, hSeek, Option.join_some]
  refine ⟨by rw [hSeek, hAnswer], ?_, ?_⟩
  · rw [hAnswer, hHead, hCount, place_of_traverses hx]
  · rw [toListFrom, ahead, hAnswer,
      hx.walk_next (List.takeWhile_append_dropWhile (p := (below ·.2.1))).symm,
      toList_of_traverses hx, List.dropWhile_map]
    rfl

theorem pair?_place_of_traverses (hx : t.arena.Traverses cmp P xs) (n : Nat) :
    (t.place n).bind t.pair? = t.toList[n]? := by
  rw [place_of_traverses hx, toList_of_traverses hx, List.getElem?_map]
  cases hn : xs[n]? with
  | none => rfl
  | some x =>
    obtain ⟨l, r, hSplit⟩ := List.append_of_mem (List.mem_of_getElem? hn)
    exact hx.pair l x r hSplit

theorem previous?_of_next? (hx : t.arena.Traverses cmp P xs) (hSplit : xs = l ++ x :: r)
    {q : Position} (hq : t.next? x.1 = some q) : t.previous? q = some x.1 := by
  rw [next?_of_traverses hx hSplit] at hq
  obtain ⟨y, hy, rfl⟩ := Option.map_eq_some_iff.1 hq
  obtain ⟨r, rfl⟩ := List.head?_eq_some_iff.1 hy
  rw [previous?_of_traverses hx (l := l ++ [x]) (r := r) (by simp [hSplit]), List.getLast?_concat]
  rfl

theorem next?_of_previous? (hx : t.arena.Traverses cmp P xs) (hSplit : xs = l ++ x :: r)
    {p : Position} (hp : t.previous? x.1 = some p) : t.next? p = some x.1 := by
  rw [previous?_of_traverses hx hSplit] at hp
  obtain ⟨y, hy, rfl⟩ := Option.map_eq_some_iff.1 hp
  obtain ⟨l, rfl⟩ := List.getLast?_eq_some_iff.1 hy
  rw [next?_of_traverses hx (l := l) (r := x :: r) (by simp [hSplit])]
  rfl

theorem navigable_of_traverses (hx : t.arena.Traverses cmp (fun _ => True) xs)
    (hAll : ∀ p, (t.pair? p).isSome → ∃ l x r, xs = l ++ x :: r ∧ x.1 = p) : t.Navigable := by
  have hList := toList_of_traverses hx
  have hPlace := place_of_traverses hx
  have hFirst : t.first? = xs.head?.map Prod.fst := by rw [first?, hx.first, Option.join_some]
  have hLast : t.last? = xs.getLast?.map Prod.fst := by rw [last?, hx.last, Option.join_some]
  exact {
    answered := by
      refine ⟨hFirst ▸ hx.first, hLast ▸ hx.last, fun p hp => ?_⟩
      obtain ⟨l, x, r, hSplit, rfl⟩ := hAll p hp
      rw [next?_of_traverses hx hSplit, previous?_of_traverses hx hSplit]
      exact ⟨hx.next l x r hSplit, hx.previous l x r hSplit⟩
    first_eq_none := by simp [hFirst, hList]
    last_eq_none := by simp [hLast, hList]
    last_eq := by rw [hLast, hPlace, hList, List.length_map, List.getLast?_eq_getElem?]
    pair_place := pair?_place_of_traverses hx
    place_eq_none := fun n => by simp [hPlace, hList]
    exists_place := fun p hp => by
      obtain ⟨l, x, r, hSplit, rfl⟩ := hAll p hp
      exact ⟨l.length, by simp [hPlace, hSplit]⟩
    previous_first := fun p hp => by
      rw [hFirst] at hp
      obtain ⟨x, hx', rfl⟩ := Option.map_eq_some_iff.1 hp
      obtain ⟨r, hSplit⟩ := List.head?_eq_some_iff.1 hx'
      exact previous?_of_traverses hx (l := []) hSplit
    previous_next := fun p q hp hq => by
      obtain ⟨l, x, r, hSplit, rfl⟩ := hAll p hp
      exact previous?_of_next? hx hSplit hq
    next_previous := fun p q hq hp => by
      obtain ⟨l, x, r, hSplit, rfl⟩ := hAll q hq
      exact next?_of_previous? hx hSplit hp
    reversed := toListReversed_of_traverses hx
    seek := fun below hBelow => seek?_of_traverses hx hBelow }

end

/-- After any requests, positions, searches and both directions of a tree agree. -/
theorem navigable_of_history [Std.TransCmp cmp] (fanout : Nat) (unique : Bool)
    (rs : List (Request κ)) :
    (answers KeyTree.answer (empty fanout unique : KeyTree κ cmp) rs).2.Navigable := by
  obtain ⟨-, hRefines⟩ := (refines_empty cmp (fun _ => True) fanout unique).answers_eq
    (fun _ => trivial) rs
  obtain ⟨xs, hx, hAll⟩ := hRefines.arena.exists_traverses_all
  exact navigable_of_traverses hx hAll

/-- A tree whose middle leaf is empty, with two identities under one key of the last leaf. -/
theorem navigable_with_emptied_leaf :
    let t := (answers KeyTree.answer (empty 4 false : KeyTree Nat compare)
      [.add 1 1, .add 2 2, .add 3 3, .add 4 4, .add 5 5, .add 6 6, .add 5 50, .remove 3 none,
        .remove 4 (some 4)]).2
    t.toList = [(1, 1), (2, 2), (5, 5), (5, 50), (6, 6)] ∧
      t.toListReversed = [(6, 6), (5, 50), (5, 5), (2, 2), (1, 1)] ∧
      t.seek? (· < 4) = t.place 2 ∧ t.toListFrom (· < 4) = [(5, 5), (5, 50), (6, 6)] ∧
      (t.place 2).bind t.pair? = some (5, 5) := by
  intro t
  have ht : t.Navigable := navigable_of_history 4 false _
  have hList : t.toList = [(1, 1), (2, 2), (5, 5), (5, 50), (6, 6)] := by decide
  obtain ⟨-, hSeek, hFrom⟩ := ht.seek (fun k => k < 4) fun k l hLe hBelow => by
    have := Nat.isLE_compare.1 hLe
    simp only [decide_eq_true_eq] at hBelow ⊢
    omega
  rw [hList] at hSeek hFrom
  exact ⟨hList, by rw [ht.reversed, hList]; rfl, hSeek, hFrom, by rw [ht.pair_place, hList]; rfl⟩

end KeyTree

end IndexScan

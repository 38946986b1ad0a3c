import IndexScan.KeyIndex
import IndexScan.Proofs.KeyTree.Traversal

/-!
# Ordered trees are ordered multimaps

`Refines` relates a tree to the multimap that it stands for.  Every answer of a tree is that of
its multimap, and every change leads to a tree that refines the changed multimap, so by induction
no sequence of requests can tell a tree from a list of entries.

The counter of a tree has 64 bits.  It agrees with the number of identities modulo `2^64`, which
is the number itself as long as there are not that many.
-/

namespace IndexScan

variable {κ : Type} {cmp : κ → κ → Ordering}

/-- The tree stands for a multimap, and its keys have a property. -/
structure KeyTree.Refines (P : κ → Prop) (t : KeyTree κ cmp) (m : Multimap κ) : Prop where
  arena : t.arena.Represents cmp t.fanout P m
  count : t.stats.totalRows = .ofNat m.total

namespace KeyTree

variable {P : κ → Prop} {t : KeyTree κ cmp} {m : Multimap κ}

theorem fanout_pos (t : KeyTree κ cmp) : 0 < t.fanout :=
  Nat.lt_of_lt_of_le (by decide) t.minFanout_le

theorem refines_empty (cmp : κ → κ → Ordering) (P : κ → Prop) (fanout : Nat) (unique : Bool) :
    (empty fanout unique : KeyTree κ cmp).Refines P [] :=
  ⟨Arena.represents_empty (fanout_pos _), rfl⟩

theorem Refines.clear (_h : t.Refines P m) : t.clear.Refines P [] :=
  ⟨Arena.represents_empty t.fanout_pos, rfl⟩

theorem Refines.ascending (h : t.Refines P m) : Multimap.Ascending cmp m := h.arena.ascending

theorem Refines.keys (h : t.Refines P m) : ∀ e ∈ m, P e.1 := h.arena.keys

/-! ### Reading -/

theorem toList_of_traverses {xs : List (Located κ)} (hx : t.arena.Traverses cmp P xs) :
    t.toList = xs.map Prod.snd := by
  rw [toList, ahead, first?, hx.first, Option.join_some, hx.walk_next (l := []) rfl]
  rfl

theorem toListReversed_of_traverses {xs : List (Located κ)} (hx : t.arena.Traverses cmp P xs) :
    t.toListReversed = t.toList.reverse := by
  rw [toListReversed, behind, last?, hx.last, Option.join_some,
    hx.walk_previous (r := []) (List.append_nil xs).symm, toList_of_traverses hx, List.map_reverse]
  rfl

/-- No entry of a tree is empty, so a key is present where identities are found under it. -/
theorem Refines.contains_eq_get (h : t.Refines P m) (key : κ) :
    m.contains cmp key = !(m.get cmp key).isEmpty :=
  Multimap.contains_eq_get h.arena.ids_ne_nil key

theorem Refines.size_eq (h : t.Refines P m) : t.size = m.total % 2 ^ 64 := by
  rw [size, h.count]
  rfl

section

variable [Std.TransCmp cmp]

theorem Refines.contains_eq (h : t.Refines P m) (key : κ) :
    t.contains key = m.contains cmp key := by
  rw [contains, h.arena.contains_eq]
  rfl

theorem Refines.get_eq (h : t.Refines P m) (key : κ) : t.get key = m.get cmp key := by
  rw [get, h.arena.get_eq]
  rfl

theorem Refines.exists_traverses (h : t.Refines P m) :
    ∃ xs, t.arena.Traverses cmp P xs ∧ xs.map Prod.snd = m.pairs := h.arena.exists_traverses

theorem Refines.toList_eq (h : t.Refines P m) : t.toList = m.pairs := by
  obtain ⟨xs, hx, hPairs⟩ := h.exists_traverses
  rw [toList_of_traverses hx, hPairs]

/-! ### Writing -/

theorem Refines.exists_insert (h : t.Refines P m) {key : κ}
    (hNew : (t.unique && m.contains cmp key) = false) (hKey : P key) (id : RowId) :
    ∃ t', t.insert key id = (.ok (), t') ∧ t'.Refines P (m.add cmp key id) ∧
      t'.unique = t.unique := by
  obtain ⟨a, hInsert, ha⟩ := h.arena.exists_insert t.minFanout_le hNew hKey id
  refine ⟨{ t with arena := a, stats := t.stats.addRows 1 }, ?_, ⟨ha, ?_⟩, rfl⟩
  · rw [insert, hInsert]
    rfl
  · rw [Multimap.total_add]
    simp [Stats.addRows, h.count]

theorem Refines.insert_duplicate (h : t.Refines P m) {key : κ}
    (hOld : (t.unique && m.contains cmp key) = true) (id : RowId) :
    t.insert key id = (.error .duplicateKey, t) := by
  obtain ⟨hUnique, hOld⟩ := Bool.and_eq_true_iff.1 hOld
  have hRefused := h.arena.insert_duplicate hOld id
  rw [← hUnique] at hRefused
  rw [insert, hRefused]
  rfl

theorem Refines.erase (h : t.Refines P m) (key : κ) (id? : Option RowId) :
    (t.erase key id?).Refines P (m.remove cmp key id?) := by
  obtain ⟨k, a, hErase, ha, hTotal⟩ := h.arena.exists_erase key id?
  refine ⟨?_, ?_⟩
  · rw [KeyTree.erase, hErase]
    exact ha
  · rw [KeyTree.erase, hErase]
    simp only [Stats.removeRows, h.count, ← hTotal, UInt64.ofNat_add, Option.getD_some]
    rw [UInt64.add_comm, UInt64.add_sub_cancel]

end

end KeyTree

/-! ### Runs of requests -/

/-- What can be asked of a key index. -/
inductive Request (κ : Type)
  | add (key : κ) (id : RowId)
  | remove (key : κ) (id? : Option RowId)
  | clear
  | get (key : κ)
  | contains (key : κ)
  | size
  | isEmpty
  | list

inductive Answer (κ : Type)
  | done
  | refused (fault : KeyFault)
  | ids (ids : List RowId)
  | flag (b : Bool)
  | number (n : Nat)
  | pairs (pairs : List (κ × RowId))

/-- The answers to requests in a row, and the last state. -/
def answers {σ : Type} (step : σ → Request κ → Answer κ × σ) : σ → List (Request κ) →
    List (Answer κ) × σ
  | s, [] => ([], s)
  | s, r :: rest =>
    let (answer, s) := step s r
    let (answers, s) := answers step s rest
    (answer :: answers, s)

def KeyTree.answer (t : KeyTree κ cmp) : Request κ → Answer κ × KeyTree κ cmp
  | .add key id =>
    match t.insert key id with
    | (.ok (), t) => (.done, t)
    | (.error fault, t) => (.refused fault, t)
  | .remove key id? => (.done, t.erase key id?)
  | .clear => (.done, t.clear)
  | .get key => (.ids (t.get key), t)
  | .contains key => (.flag (t.contains key), t)
  | .size => (.number t.size, t)
  | .isEmpty => (.flag (KeyIndex.isEmpty t), t)
  | .list => (.pairs t.toList, t)

/-- A list of entries in the place of a tree, with identities counted by `count`. -/
def Multimap.answer (cmp : κ → κ → Ordering) (unique : Bool) (count : Nat → Nat)
    (m : Multimap κ) : Request κ → Answer κ × Multimap κ
  | .add key id =>
    if unique && m.contains cmp key then (.refused .duplicateKey, m)
    else (.done, m.add cmp key id)
  | .remove key id? => (.done, m.remove cmp key id?)
  | .clear => (.done, [])
  | .get key => (.ids (m.get cmp key), m)
  | .contains key => (.flag (m.contains cmp key), m)
  | .size => (.number (count m.total), m)
  | .isEmpty => (.flag (count m.total == 0), m)
  | .list => (.pairs m.pairs, m)

theorem KeyTree.Refines.answer_eq [Std.TransCmp cmp] {P : κ → Prop} (hP : ∀ key, P key)
    {t : KeyTree κ cmp} {m : Multimap κ} (h : t.Refines P m) (r : Request κ) :
    (t.answer r).1 = (m.answer cmp t.unique (· % 2 ^ 64) r).1 ∧
      (t.answer r).2.Refines P (m.answer cmp t.unique (· % 2 ^ 64) r).2 ∧
      (t.answer r).2.unique = t.unique := by
  cases r with
  | add key id =>
    by_cases hOld : (t.unique && m.contains cmp key) = true
    · rw [answer, h.insert_duplicate hOld, Multimap.answer, if_pos hOld]
      exact ⟨rfl, h, rfl⟩
    · obtain ⟨t', hInsert, ht', hUnique⟩ := h.exists_insert (by simpa using hOld) (hP key) id
      rw [answer, hInsert, Multimap.answer, if_neg hOld]
      exact ⟨rfl, ht', hUnique⟩
  | remove key id? => exact ⟨rfl, h.erase key id?, rfl⟩
  | clear => exact ⟨rfl, h.clear, rfl⟩
  | get key => exact ⟨congrArg Answer.ids (h.get_eq key), h, rfl⟩
  | contains key => exact ⟨congrArg Answer.flag (h.contains_eq key), h, rfl⟩
  | size => exact ⟨congrArg Answer.number h.size_eq, h, rfl⟩
  | isEmpty => exact ⟨congrArg (fun n => Answer.flag (n == 0)) h.size_eq, h, rfl⟩
  | list => exact ⟨congrArg Answer.pairs h.toList_eq, h, rfl⟩

theorem KeyTree.Refines.answers_eq [Std.TransCmp cmp] {P : κ → Prop} (hP : ∀ key, P key)
    (rs : List (Request κ)) {t : KeyTree κ cmp} {m : Multimap κ} (h : t.Refines P m) :
    (answers KeyTree.answer t rs).1
        = (answers (Multimap.answer cmp t.unique (· % 2 ^ 64)) m rs).1 ∧
      (answers KeyTree.answer t rs).2.Refines P
        (answers (Multimap.answer cmp t.unique (· % 2 ^ 64)) m rs).2 := by
  induction rs generalizing t m with
  | nil => exact ⟨rfl, h⟩
  | cons r rs ih =>
    obtain ⟨hAnswer, hNext, hUnique⟩ := h.answer_eq hP r
    obtain ⟨hRest, hLast⟩ := ih hNext
    rw [hUnique] at hRest hLast
    exact ⟨List.cons_eq_cons.2 ⟨hAnswer, hRest⟩, hLast⟩

theorem Multimap.total_answer_le (cmp : κ → κ → Ordering) (unique : Bool) (count : Nat → Nat)
    (m : Multimap κ) (r : Request κ) : (m.answer cmp unique count r).2.total ≤ m.total + 1 := by
  cases r with
  | add key id =>
    rw [answer]
    split
    · exact Nat.le_succ _
    · exact (total_add m key id).le
  | remove key id? => exact Nat.le_succ_of_le (total_remove_le m key id?)
  | clear => exact Nat.zero_le _
  | _ => exact Nat.le_succ _

theorem Multimap.Ascending.answers [Std.TransCmp cmp] (unique : Bool) (count : Nat → Nat)
    (rs : List (Request κ)) {m : Multimap κ} (h : m.Ascending cmp) :
    (answers (Multimap.answer cmp unique count) m rs).2.Ascending cmp := by
  induction rs generalizing m with
  | nil => exact h
  | cons r rs ih =>
    refine ih (m := (m.answer cmp unique count r).2) ?_
    cases r with
    | add key id =>
      rw [answer]
      split
      · exact h
      · exact h.add key id
    | remove key id? => exact h.remove key id?
    | clear => exact List.Pairwise.nil
    | _ => exact h

/-- Two ways to count give the same answers as long as they agree on the numbers that occur. -/
theorem Multimap.answers_congr {unique : Bool} {count count' : Nat → Nat} {bound : Nat}
    (hCount : ∀ n < bound, count n = count' n) (rs : List (Request κ)) {m : Multimap κ}
    (hm : m.total + rs.length < bound) :
    answers (Multimap.answer cmp unique count) m rs
      = answers (Multimap.answer cmp unique count') m rs := by
  induction rs generalizing m with
  | nil => rfl
  | cons r rs ih =>
    have hStep : m.answer cmp unique count r = m.answer cmp unique count' r := by
      have hTotal := hCount m.total (by omega)
      cases r <;> simp only [answer, hTotal]
    have hNext := total_answer_le cmp unique count' m r
    rw [List.length_cons] at hm
    have hRest := ih (m := (m.answer cmp unique count' r).2) (by omega)
    simp only [answers, hStep, hRest]

/-- A tree answers every sequence of requests like a list of entries that is always in strictly
ascending order. -/
theorem KeyTree.answers_eq_multimap [Std.TransCmp cmp] (fanout : Nat) (unique : Bool)
    (rs : List (Request κ)) :
    (answers KeyTree.answer (empty fanout unique : KeyTree κ cmp) rs).1
        = (answers (Multimap.answer cmp unique (· % 2 ^ 64)) [] rs).1 ∧
      (rs.length < 2 ^ 64 → (answers KeyTree.answer (empty fanout unique : KeyTree κ cmp) rs).1
        = (answers (Multimap.answer cmp unique id) [] rs).1) ∧
      Multimap.Ascending cmp (answers (Multimap.answer cmp unique id) [] rs).2 := by
  obtain ⟨hWrapped, -⟩ := (refines_empty cmp (fun _ => True) fanout unique).answers_eq
    (fun _ => trivial) rs
  refine ⟨hWrapped, fun hLength => hWrapped.trans (congrArg Prod.fst ?_),
    Multimap.Ascending.answers unique id rs List.Pairwise.nil⟩
  exact Multimap.answers_congr (fun n hn => Nat.mod_eq_of_lt hn) rs (by simpa using hLength)

/-- A unique tree of two levels, in which a key comes back after it has been removed. -/
theorem KeyTree.answers_of_readded_key :
    (answers KeyTree.answer (empty 4 true : KeyTree Nat compare)
      [.add 2 1, .add 1 2, .add 2 3, .add 4 4, .add 3 5, .add 5 6, .remove 3 (some 5), .add 3 7,
        .size, .list]).1
      = [.done, .done, .refused .duplicateKey, .done, .done, .done, .done, .done, .number 5,
          .pairs [(1, 2), (2, 1), (3, 7), (4, 4), (5, 6)]] := by
  refine ((answers_eq_multimap 4 true _).2.1 (by decide)).trans ?_
  rfl

end IndexScan

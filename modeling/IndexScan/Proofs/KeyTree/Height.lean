import IndexScan.Proofs.KeyTree.Soundness

/-!
# The height of a tree

A tree of depth `d` has at least `2 * k ^ (d - 2)` leaves, where `k` is half the fan-out rounded up,
because every branch but the root has `k` children.  Each of these leaves has been charged for half
a fan-out of keys.  So a tree can be high only if many keys have been brought in, however few are
left of them: every step pays with the keys it brings in for what the tree is charged after it.
-/

namespace IndexScan

variable {κ : Type} {cmp : κ → κ → Ordering}

namespace Arena

variable {a a' : Arena κ} {fanout n : Nat}

/-- The arena draws a shape with ample branches that `n` keys pay for. -/
def Funded (cmp : κ → κ → Ordering) (fanout : Nat) (a : Arena κ) (n : Nat) : Prop :=
  ∃ (h : Nat) (T : Shape κ h), a.Draws cmp T ∧ Shape.Fits fanout h T ∧ Shape.Ample fanout 0 h T ∧
    Shape.credit fanout h T ≤ n

theorem funded_empty (cmp : κ → κ → Ordering) (hFanout : 0 < fanout) :
    (empty : Arena κ).Funded cmp fanout 0 :=
  ⟨0, .leaf 0 [], draws_empty cmp, fits_empty hFanout, trivial, Nat.le_refl 0⟩

/-- The depth of an arena is paid for. -/
theorem Funded.depth_le (ha : a.Funded cmp fanout n) : ∃ d, a.depth = some d ∧
    (2 ≤ d → 2 * (fanout / 2) * ((fanout + 1) / 2) ^ (d - 2) ≤ n) := by
  obtain ⟨h, T, hd, hT, hAmple, hCredit⟩ := ha
  refine ⟨h + 1, hd.depth_eq hT, fun hDepth => ?_⟩
  obtain ⟨g, rfl⟩ := Nat.exists_eq_add_one.2 (show 0 < h by omega)
  obtain ⟨⟨hLength, hSeparators, -⟩, -⟩ := hT
  have hWidth : 2 ≤ (Fork.children T).length := by
    have := List.length_pos_of_ne_nil hSeparators
    omega
  have hLeaves := Shape.mul_le_leaves hWidth fun c hc => (hAmple.2 c hc).pow_le_leaves
  calc 2 * (fanout / 2) * ((fanout + 1) / 2) ^ (g + 1 + 1 - 2)
      = 2 * ((fanout + 1) / 2) ^ g * (fanout / 2) := by
        rw [show g + 1 + 1 - 2 = g by omega]
        ac_rfl
    _ ≤ (leavesOf (Shape.pieces (g + 1) T)).length * (fanout / 2) :=
        Nat.mul_le_mul_right _ hLeaves
    _ ≤ charge fanout (Shape.pieces (g + 1) T) := leaves_mul_le_charge ..
    _ ≤ n := hCredit

section

variable [Std.TransCmp cmp]

/-- A key that is brought in pays for itself and for all that is divided. -/
theorem Funded.insert (ha : a.Funded cmp fanout n) (hFanout : minFanout ≤ fanout) (unique : Bool)
    (key : κ) (id : RowId) : ∃ present, a.contains cmp key = some present ∧
      (a.insert cmp fanout unique key id = some (.error .duplicateKey, a) ∨
        ∃ a', a.insert cmp fanout unique key id = some (.ok (), a') ∧
          a'.Funded cmp fanout (if present then n else n + 1)) := by
  obtain ⟨h, T, hd, hT, hAmple, hCredit⟩ := ha
  obtain ⟨C, leaf, es, node, rfl, hAt⟩ := hd.exists_at hT (P := fun _ => True)
    (fun _ _ => trivial) key
  obtain ⟨below, own, above, hSplit⟩ := hAt.ascending.exists_split key
  refine ⟨own.isSome, hAt.contains_eq hSplit, ?_⟩
  cases hOld : unique && own.isSome with
  | true =>
    obtain ⟨rfl, hOwn⟩ := Bool.and_eq_true_iff.1 hOld
    exact Or.inl (hAt.insert_duplicate hSplit hOwn id)
  | false =>
    obtain ⟨a', h', T, hInsert, hDraws, hFits, hRegrown⟩ :=
      hAt.exists_insert hFanout hSplit hOld id
    have hLeaf := C.credit_fill_leaf_le fanout leaf (hSplit.length_add id).le
    refine Or.inr ⟨a', hInsert, h', T, hDraws, hFits,
      hRegrown.ample (Context.ample_fill_leaf _ hAmple), ?_⟩
    rw [hRegrown.credit]
    cases own with
    | none => exact hLeaf.trans (Nat.add_le_add_right hCredit 1)
    | some e => exact hLeaf.trans hCredit

theorem Funded.erase (ha : a.Funded cmp fanout n) (key : κ) (id? : Option RowId) :
    ∃ k a', a.erase cmp key id? = some (k, a') ∧ a'.Funded cmp fanout n := by
  obtain ⟨h, T, hd, hT, hAmple, hCredit⟩ := ha
  obtain ⟨C, leaf, es, node, rfl, hAt⟩ := hd.exists_at hT (P := fun _ => True)
    (fun _ _ => trivial) key
  obtain ⟨k, b, hErase, hDraws, hFits, -⟩ := hAt.exists_erase id?
  refine ⟨k, b, hErase, h, _, hDraws, hFits, Context.ample_fill_leaf _ hAmple, ?_⟩
  have hKeys := (Multimap.sublist_keys_remove cmp es key id?).length_le
  rw [List.length_map, List.length_map] at hKeys
  exact (C.credit_fill_leaf_le fanout (k := 0) leaf hKeys).trans hCredit

end

end Arena

namespace KeyTree

variable {n : Nat}

/-- Counts a request that brings in a key which is not there, and starts again with a clearing. -/
def tally (t : KeyTree κ cmp) (n : Nat) : Request κ → Nat
  | .add key id =>
    match (t.insert key id).1 with
    | .ok () => if t.contains key then n else n + 1
    | .error _ => n
  | .clear => 0
  | _ => n

/-- The number of keys that the requests since the last clearing bring in, after `n` others. -/
def newKeys (t : KeyTree κ cmp) (n : Nat) : List (Request κ) → Nat
  | [] => n
  | r :: rs => (t.answer r).2.newKeys (t.tally n r) rs

theorem funded_answer [Std.TransCmp cmp] {t : KeyTree κ cmp}
    (ht : t.arena.Funded cmp t.fanout n) (r : Request κ) :
    (t.answer r).2.arena.Funded cmp t.fanout (t.tally n r) := by
  cases r with
  | add key id =>
    obtain ⟨present, hPresent, hInsert⟩ := ht.insert t.minFanout_le t.unique key id
    rw [answer, tally, insert, contains, hPresent]
    obtain hInsert | ⟨a', hInsert, ha'⟩ := hInsert
    · rw [hInsert]
      exact ht
    · rw [hInsert]
      exact ha'
  | remove key id? =>
    obtain ⟨k, a', hErase, ha'⟩ := ht.erase key id?
    rw [answer, KeyTree.erase, hErase]
    exact ha'
  | clear => exact Arena.funded_empty cmp t.fanout_pos
  | _ => exact ht

theorem funded_answers [Std.TransCmp cmp] (rs : List (Request κ)) {t : KeyTree κ cmp}
    (ht : t.arena.Funded cmp t.fanout n) :
    (answers KeyTree.answer t rs).2.arena.Funded cmp t.fanout (t.newKeys n rs) := by
  induction rs generalizing t n with
  | nil => exact ht
  | cons r rs ih =>
    have hNext := funded_answer ht r
    rw [← t.fanout_answer r] at hNext ⊢
    exact ih hNext

/-- A tree is no higher than the keys brought in since it was last empty allow, whatever has been
removed of them. -/
theorem keys_of_depth [Std.TransCmp cmp] (fanout : Nat) (unique : Bool) (rs : List (Request κ)) :
    let t := (answers KeyTree.answer (empty fanout unique : KeyTree κ cmp) rs).2
    let m := max fanout minFanout
    t.arena.depth = some t.depth ∧ (2 ≤ t.depth →
      2 * (m / 2) * ((m + 1) / 2) ^ (t.depth - 2)
        ≤ (empty fanout unique : KeyTree κ cmp).newKeys 0 rs) := by
  intro t m
  have ht : t.arena.Funded cmp m _ := funded_answers rs
    (Arena.funded_empty cmp (fanout_pos (empty fanout unique : KeyTree κ cmp)))
  obtain ⟨d, hDepth, hKeys⟩ := ht.depth_le
  have hAnswer : t.depth = d := by rw [depth, hDepth]; rfl
  exact hAnswer ▸ ⟨hDepth, hKeys⟩

/-- Ten keys, of which all but the last are removed again. -/
def thinning : List (Request Nat) :=
  (List.range 10).map (fun k => .add k 0) ++ (List.range 9).map fun k => .remove k none

/-- A tree of three levels with one key in it. -/
theorem keys_of_thinned_tree :
    let t := (answers KeyTree.answer (empty 4 true : KeyTree Nat compare) thinning).2
    t.depth = 3 ∧ t.toList = [(9, 0)] ∧
      2 * (4 / 2) * ((4 + 1) / 2) ^ (t.depth - 2)
        ≤ (empty 4 true : KeyTree Nat compare).newKeys 0 thinning := by
  intro t
  have hDepth : t.depth = 3 := by decide
  refine ⟨hDepth, by decide, ?_⟩
  exact (@keys_of_depth Nat compare _ 4 true thinning).2 (hDepth ▸ (by decide : 2 ≤ 3))

end KeyTree

end IndexScan

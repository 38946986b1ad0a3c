import IndexScan.Proofs.Index.Hashed
import IndexScan.Proofs.Recursion.Rounds

/-!
# Equal keys are one key

Equal values give any hasher the same to write (`Value.digest_eq_iff`), so a hash table does not
tell equal keys apart: calls that name a key in another form are answered alike, whatever the hasher
(`KeyTable.Alike.run`).  A hashed index finds and refuses rows by such a table.  The tuples that a
recursive query has seen are one, too, and of equal tuples it keeps the first
(`RecursiveQuery.keep_alike`, `RecursiveQuery.keep_distinct`).
-/

namespace IndexScan

variable {κ : Type} [BEq κ]

/-- Equals are equal to the same things. -/
theorem beq_congr [EquivBEq κ] {a b k l : κ} (hab : (a == b) = true) (hkl : (k == l) = true) :
    (a == k) = (b == l) := by
  rw [BEq.congr_left hab, BEq.congr_right hkl]

/-- Two calls that may differ in the form of their key. -/
inductive KeyIndex.Call.Alike : KeyIndex.Call κ → KeyIndex.Call κ → Prop
  | insert {k l : κ} (h : (k == l) = true) (id : RowId) : Alike (.insert k id) (.insert l id)
  | erase {k l : κ} (h : (k == l) = true) (id? : Option RowId) : Alike (.erase k id?) (.erase l id?)
  | clear : Alike .clear .clear
  | get {k l : κ} (h : (k == l) = true) : Alike (.get k) (.get l)
  | contains {k l : κ} (h : (k == l) = true) : Alike (.contains k) (.contains l)
  | size : Alike .size .size
  | isEmpty : Alike .isEmpty .isEmpty

/-! ### Hash tables -/

namespace KeyTable

variable [Hashable κ]

/-- Two tables that tell the same of equal keys. -/
structure Alike (t u : KeyTable κ) : Prop where
  unique_eq : t.unique = u.unique
  stats_eq : t.stats = u.stats
  get_eq : ∀ {k l}, (k == l) = true → t.get k = u.get l
  contains_eq : ∀ {k l}, (k == l) = true → t.contains k = u.contains l

theorem Alike.clear {t u : KeyTable κ} (h : t.Alike u) : t.clear.Alike u.clear where
  unique_eq := h.unique_eq
  stats_eq := congrArg Stats.clear h.stats_eq
  get_eq _ := by
    simp only [get, KeyTable.clear, Std.HashMap.getD_empty]
  contains_eq _ := by
    simp only [contains, KeyTable.clear, Std.HashMap.contains_empty]

variable [EquivBEq κ] [LawfulHashable κ] {t u : KeyTable κ}

theorem Alike.refl (t : KeyTable κ) : t.Alike t where
  unique_eq := rfl
  stats_eq := rfl
  get_eq h := Std.HashMap.getD_congr h
  contains_eq h := Std.HashMap.contains_congr h

namespace Alike

theorem insert (h : t.Alike u) {a b : κ} (hab : (a == b) = true) (id : RowId) :
    (∃ e, t.insert a id = (.error e, t) ∧ u.insert b id = (.error e, u)) ∨
      ∃ t' u', t.insert a id = (.ok (), t') ∧ u.insert b id = (.ok (), u') ∧ t'.Alike u' := by
  have hIds : t.map.getD a [] = u.map.getD b [] := h.get_eq hab
  rw [KeyTable.insert, KeyTable.insert, h.unique_eq, h.contains_eq hab]
  by_cases hTaken : (u.unique && u.contains b) = true
  · rw [if_pos hTaken, if_pos hTaken]
    exact Or.inl ⟨_, rfl, rfl⟩
  · rw [if_neg hTaken, if_neg hTaken]
    refine Or.inr ⟨_, _, rfl, rfl, ⟨rfl, congrArg (Stats.addRows · 1) h.stats_eq,
      fun {k l} hkl => ?_, fun {k l} hkl => ?_⟩⟩
    · have hRest : t.map.getD k [] = u.map.getD l [] := h.get_eq hkl
      simp only [KeyTable.get, Std.HashMap.getD_insert, hIds, beq_congr hab hkl, hRest]
    · have hRest : t.map.contains k = u.map.contains l := h.contains_eq hkl
      simp only [KeyTable.contains, Std.HashMap.contains_insert, beq_congr hab hkl, hRest]

theorem erase (h : t.Alike u) {a b : κ} (hab : (a == b) = true) (id? : Option RowId) :
    (t.erase a id?).Alike (u.erase b id?) := by
  rw [erase_eq, erase_eq, h.get_eq hab]
  refine ⟨h.unique_eq, congrArg (Stats.removeRows · _) h.stats_eq, fun {k l} hkl => ?_,
    fun {k l} hkl => ?_⟩
  · have hRest : t.get k = u.get l := h.get_eq hkl
    simp only [KeyTable.get, getD_withIds, beq_congr hab hkl] at hRest ⊢
    rw [hRest]
  · have hRest : t.contains k = u.contains l := h.contains_eq hkl
    simp only [KeyTable.contains, contains_withIds, beq_congr hab hkl] at hRest ⊢
    rw [hRest]

theorem answer (h : t.Alike u) {c d : KeyIndex.Call κ} (hcd : c.Alike d) :
    (KeyIndex.answer t c).1 = (KeyIndex.answer u d).1 ∧
      (KeyIndex.answer t c).2.Alike (KeyIndex.answer u d).2 := by
  have hSize : t.size = u.size := congrArg (fun s : Stats => s.totalRows.toNat) h.stats_eq
  cases hcd with
  | @insert k l hkl id =>
    rcases h.insert hkl id with ⟨e, hLeft, hRight⟩ | ⟨t', u', hLeft, hRight, hNext⟩
    · have hLeft : KeyIndex.insert t k id = (.error e, t) := hLeft
      have hRight : KeyIndex.insert u l id = (.error e, u) := hRight
      rw [KeyIndex.answer, KeyIndex.answer, hLeft, hRight]
      exact ⟨rfl, h⟩
    · have hLeft : KeyIndex.insert t k id = (.ok (), t') := hLeft
      have hRight : KeyIndex.insert u l id = (.ok (), u') := hRight
      rw [KeyIndex.answer, KeyIndex.answer, hLeft, hRight]
      exact ⟨rfl, hNext⟩
  | erase hkl id? => exact ⟨rfl, h.erase hkl id?⟩
  | clear => exact ⟨rfl, h.clear⟩
  | get hkl => exact ⟨congrArg Answer.ids (h.get_eq hkl), h⟩
  | contains hkl => exact ⟨congrArg Answer.flag (h.contains_eq hkl), h⟩
  | size => exact ⟨congrArg Answer.number hSize, h⟩
  | isEmpty => exact ⟨congrArg (fun n => Answer.flag (n == 0)) hSize, h⟩

end Alike

/-- Calls that name equal keys are answered alike. -/
theorem Alike.run (h : t.Alike u) {calls calls' : List (KeyIndex.Call κ)}
    (hCalls : List.Forall₂ KeyIndex.Call.Alike calls calls') :
    (KeyIndex.run t calls).1 = (KeyIndex.run u calls').1 ∧
      (KeyIndex.run t calls).2.Alike (KeyIndex.run u calls').2 := by
  induction hCalls generalizing t u with
  | nil => exact ⟨rfl, h⟩
  | cons hcd _ ih =>
    obtain ⟨hAnswer, hNext⟩ := h.answer hcd
    obtain ⟨hRest, hLast⟩ := ih hNext
    exact ⟨List.cons_eq_cons.2 ⟨hAnswer, hRest⟩, hLast⟩

end KeyTable

/-! ### Hashed indexes -/

namespace HashedIndex

variable {ix ix' : HashedIndex} {lower upper lower' upper' : Option Bound} {k k' : Key}

/-- Bounds that pin equal keys start the same scan. -/
theorem scan_congr (hKey : ix.pinnedKey lower upper = .ok k)
    (hKey' : ix.pinnedKey lower' upper' = .ok k') (h : (k == k') = true) :
    ix.scan lower upper = ix.scan lower' upper' := by
  have hIds : ix.keys.get k = ix.keys.get k' := Std.HashMap.getD_congr h
  rw [scan, scan, hKey, hKey']
  simp only [hIds]

theorem exists_keys_of_insert {r : Row} (h : ix.insert r = (.ok (), ix')) :
    ∃ keys, ix.keys.insert (ix.order.keyOf r) r.id = (.ok (), keys) ∧
      ix' = { ix with store := ix.store.insert r, keys } := by
  rw [insert] at h
  cases hCheck : ix.store.check r with
  | error e =>
    rw [hCheck] at h
    cases h
  | ok =>
    rw [hCheck] at h
    dsimp only at h
    rcases hKeys : ix.keys.insert (ix.order.keyOf r) r.id with ⟨⟨⟨⟩⟩ | ⟨⟨⟩⟩, keys⟩ <;>
      rw [hKeys] at h
    · cases h
    · exact ⟨keys, rfl, (Prod.mk.inj h).2.symm⟩

/-- If keys are unique, a row whose key is equal to that of a stored one is refused. -/
theorem insert_equal_key (hUnique : ix.keys.unique = true) {r s : Row}
    (hInsert : ix.insert r = (.ok (), ix')) (hKey : (ix.order.keyOf r == ix.order.keyOf s) = true)
    (hCheck : ix'.store.check s = .ok ()) :
    ix'.insert s
      = (.error (.duplicateKey ix'.store.index (keyValue (ix'.order.keyOf s))), ix') := by
  obtain ⟨keys, hKeys, rfl⟩ := exists_keys_of_insert hInsert
  have hTaken : keys.insert (ix.order.keyOf s) s.id = (.error .duplicateKey, keys) := by
    rw [KeyTable.insert] at hKeys
    split at hKeys
    · cases hKeys
    · obtain rfl := (Prod.mk.inj hKeys).2
      rw [KeyTable.insert, if_pos]
      simp only [KeyTable.contains, Std.HashMap.contains_insert, hUnique, hKey, Bool.true_or,
        Bool.and_true]
  rw [insert, hCheck]
  simp only [hTaken]

end HashedIndex

/-! ### What has been seen -/

/-- Two sets that hold equal members alike. -/
def Distinct.SeenAlike [Hashable κ] (seen seen' : Std.HashSet κ) : Prop :=
  ∀ a b, (a == b) = true → seen.contains a = seen'.contains b

/-- Lists with equal members in the same places have equal members left at the same places. -/
theorem Distinct.unseen_alike [Hashable κ] [EquivBEq κ] [LawfulHashable κ]
    {seen seen' : Std.HashSet κ} (hSeen : SeenAlike seen seen') {l m : List κ}
    (h : (l == m) = true) :
    ((unseen l seen).1 == (unseen m seen').1) = true ∧
      SeenAlike (unseen l seen).2 (unseen m seen').2 := by
  simp only [beq_iff_forall₂] at h ⊢
  induction h generalizing seen seen' with
  | nil => exact ⟨.nil, hSeen⟩
  | @cons a b l m hab _ ih =>
    rw [unseen, unseen, hSeen a b hab]
    by_cases hOld : seen'.contains b = true
    · rw [if_pos hOld, if_pos hOld]
      exact ih hSeen
    · rw [if_neg hOld, if_neg hOld]
      have hInsert : SeenAlike (seen.insert a) (seen'.insert b) := by
        intro c d hcd
        rw [Std.HashSet.contains_insert, Std.HashSet.contains_insert, beq_congr hab hcd,
          hSeen c d hcd]
      obtain ⟨hFresh, hAll⟩ := ih hInsert
      exact ⟨.cons hab hFresh, hAll⟩

namespace RecursiveQuery

variable {σ : Type} {q : RecursiveQuery σ} (hUnion : q.unionAll = false)

include hUnion

theorem keep_eq_unseen (ts : List Tuple) (seen : Seen) :
    q.keep ts seen = Distinct.unseen ts seen := by
  rw [keep, hUnion, if_neg Bool.false_ne_true]

theorem keep_alike {ts us : List Tuple} {seen seen' : Seen}
    (hSeen : Distinct.SeenAlike seen seen') (h : (ts == us) = true) :
    ((q.keep ts seen).1 == (q.keep us seen').1) = true ∧
      Distinct.SeenAlike (q.keep ts seen).2 (q.keep us seen').2 := by
  rw [keep_eq_unseen hUnion, keep_eq_unseen hUnion]
  exact Distinct.unseen_alike hSeen h

/-- Of equal tuples one is kept, unless one has been seen, and all have been seen afterwards. -/
theorem keep_distinct (ts : List Tuple) (seen : Seen) :
    ((q.keep ts seen).1.Pairwise fun t u => (t == u) = false) ∧
      (∀ t ∈ (q.keep ts seen).1, seen.contains t = false) ∧
      ∀ t, (q.keep ts seen).2.contains t = (seen.contains t || ts.contains t) := by
  have hToList : ∀ t, seen.contains t = seen.toList.contains t := fun t =>
    Std.HashSet.contains_toList.symm
  have hHolds : Seen.Holds q seen seen.toList := fun _ => hToList
  obtain ⟨hKept, hSeen⟩ := q.keep_eq hHolds ts
  refine ⟨?_, fun t ht => ?_, fun t => ?_⟩
  · rw [hKept, kept_eq hUnion]
    exact Distinct.pairwise_eraseDups _
  · rw [hKept] at ht
    rw [hToList]
    exact (mem_of_mem_kept hUnion ht).2
  · rw [hSeen hUnion, hToList, Bool.eq_iff_iff, List.contains_append, Bool.or_eq_true,
      Bool.or_eq_true]
    constructor
    · refine Or.imp_right fun ht => ?_
      obtain ⟨u, hu, htu⟩ := List.contains_iff_exists_mem_beq.1 ht
      exact List.contains_iff_exists_mem_beq.2 ⟨u, (mem_of_mem_kept hUnion hu).1, htu⟩
    · rintro (ht | ht)
      · exact Or.inl ht
      · obtain ⟨u, hu, htu⟩ := List.contains_iff_exists_mem_beq.1 ht
        rw [← Bool.or_eq_true, ← List.contains_append, List.contains_congr htu]
        exact contains_kept hUnion hu

end RecursiveQuery

namespace Value

/-- Tuples hashed by any hasher. -/
abbrev hashableBy (hasher : List HashWrite → UInt64) : Hashable Tuple where
  hash vs := hasher (digestAll vs)

theorem lawfulHashable_hashableBy (hasher : List HashWrite → UInt64) :
    @LawfulHashable Tuple _ (hashableBy hasher) :=
  @LawfulHashable.mk _ _ (hashableBy hasher) fun _ _ h => congrArg hasher (digestAll_eq_iff.2 h)

/-- Values give a hasher the same to write if they are equal, and not otherwise, and so do lists of
values.  So whatever the hasher, a hash table does not tell equal keys apart, nor does a hashed
index; and of equal tuples a recursive query with `UNION` keeps one. -/
theorem equals_hash_alike :
    (∀ a b : Value, (a == b ↔ a.compare b = .eq) ∧ (a.digest = b.digest ↔ a == b)) ∧
    (∀ k l : Tuple, (k == l ↔ List.Forall₂ (fun a b : Value => a == b) k l) ∧
      (digestAll k = digestAll l ↔ k == l)) ∧
    (∀ hasher : List HashWrite → UInt64, letI := hashableBy hasher
      ∀ (unique : Bool) (calls calls' : List (KeyIndex.Call Key)),
        List.Forall₂ KeyIndex.Call.Alike calls calls' →
          (KeyIndex.run ({ unique } : KeyTable Key) calls).1
            = (KeyIndex.run ({ unique } : KeyTable Key) calls').1) ∧
    (∀ (ix : HashedIndex) (lower upper lower' upper' : Option Bound) (k k' : Key),
      ix.pinnedKey lower upper = .ok k → ix.pinnedKey lower' upper' = .ok k' → k == k' →
        ix.scan lower upper = ix.scan lower' upper') ∧
    (∀ (ix ix' : HashedIndex) (r s : Row), ix.keys.unique = true →
      ix.insert r = (.ok (), ix') → ix.order.keyOf r == ix.order.keyOf s →
        ix'.store.check s = .ok () → ix'.insert s
          = (.error (.duplicateKey ix'.store.index (keyValue (ix'.order.keyOf s))), ix')) ∧
    ∀ {σ : Type} (q : RecursiveQuery σ), q.unionAll = false →
      (∀ (ts us : List Tuple) (seen seen' : RecursiveQuery.Seen), Distinct.SeenAlike seen seen' →
        ts == us → (q.keep ts seen).1 == (q.keep us seen').1 ∧
          Distinct.SeenAlike (q.keep ts seen).2 (q.keep us seen').2) ∧
      ∀ (ts : List Tuple) (seen : RecursiveQuery.Seen),
        ((q.keep ts seen).1.Pairwise fun t u => (t == u) = false) ∧
        (∀ t ∈ (q.keep ts seen).1, seen.contains t = false) ∧
        ∀ t, (q.keep ts seen).2.contains t = (seen.contains t || ts.contains t) := by
  refine ⟨fun a b => ⟨beq_iff_compare_eq, digest_eq_iff.trans beq_iff_compare_eq.symm⟩,
    fun k l => ⟨beq_iff_forall₂, digestAll_eq_iff⟩, fun hasher => ?_,
    fun ix lower upper lower' upper' k k' => ?_, fun ix ix' r s hUnique => ?_,
    fun q hUnion => ⟨fun ts us seen seen' => ?_, ?_⟩⟩
  · let _ := hashableBy hasher
    have := lawfulHashable_hashableBy hasher
    exact fun unique calls calls' h => (KeyTable.Alike.run (.refl _) h).1
  · exact HashedIndex.scan_congr
  · exact HashedIndex.insert_equal_key hUnique
  · exact RecursiveQuery.keep_alike hUnion
  · exact RecursiveQuery.keep_distinct hUnion

/-- A double at the lower end of the 64-bit integers, a negative zero and two NaNs; and a hash table
that is asked for an integer by the double equal to it. -/
theorem equals_hash_alike_at_ends :
    (int64 Int64.minValue).digest = (float64 ⟨0xC3E0000000000000⟩).digest ∧
      (int32 0).digest = (float64 ⟨0x8000000000000000⟩).digest ∧
      (float64 ⟨0x7FF8000000000001⟩).digest = (float64 ⟨0xFFF0000000000002⟩).digest ∧
      (KeyIndex.run ({ unique := true } : KeyTable Key)
          [.insert [int32 7] 1, .insert [float64 ⟨0x401C000000000000⟩] 2, .get [int64 7]]).1
        = (KeyIndex.run ({ unique := true } : KeyTable Key)
          [.insert [int64 7] 1, .insert [int64 7] 2, .get [int64 7]]).1 := by
  obtain ⟨hValues, -, hTables, -⟩ := equals_hash_alike
  refine ⟨(hValues _ _).2.2 (by decide +kernel), (hValues _ _).2.2 (by decide +kernel),
    (hValues _ _).2.2 (by decide +kernel), hTables hash true _ _ ?_⟩
  exact .cons (.insert (by decide +kernel) 1)
    (.cons (.insert (by decide +kernel) 2) (.cons (.get (by decide +kernel)) .nil))

end Value

end IndexScan

import Mathlib.Data.List.Nodup
import IndexScan.Proofs.KeyTree.Refinement
import IndexScan.Proofs.RowOrder
import IndexScan.Proofs.Value.Digest

/-!
# The contract of key indexes

A key index keeps the contract if some relation to multimaps survives all its calls and gives it the
answers of the multimap (`KeyIndex.Models`).  Ordered trees do, by `KeyTree.Refines`.  Hash tables
do for keys that the comparison and the equality tell apart alike (`KeyTable.models`); they have no
order, but the entries they hold are those of the multimap (`KeyTable.Refines.values_perm`).  So no
calls can tell a hash table from a tree.
-/

namespace IndexScan

variable {κ : Type} {cmp : κ → κ → Ordering}

namespace KeyIndex

/-- The relation makes a key index a multimap: each call answers what the multimap answers, and
leads to what it does to the multimap. -/
structure Models {ι : Type} [KeyIndex ι κ] (cmp : κ → κ → Ordering) (P : κ → Prop)
    (R : ι → Multimap κ → Prop) : Prop where
  ascending {ix m} : R ix m → m.Ascending cmp
  keys {ix m} : R ix m → ∀ e ∈ m, P e.1
  ids_ne_nil {ix m} : R ix m → ∀ e ∈ m, e.2 ≠ []
  get_eq {ix m} : R ix m → ∀ {key}, P key → get ix key = m.get cmp key
  contains_eq {ix m} : R ix m → ∀ {key}, P key → contains ix key = m.contains cmp key
  count_eq {ix m} : R ix m → (stats ix).totalRows = .ofNat m.total
  size_eq {ix m} : R ix m → size ix = m.total % 2 ^ 64
  exists_insert {ix m} : R ix m → ∀ {key}, P key → (unique ix && m.contains cmp key) = false →
    ∀ id, ∃ ix', insert ix key id = (.ok (), ix') ∧ R ix' (m.add cmp key id) ∧
      unique ix' = unique ix
  insert_duplicate {ix m} : R ix m → ∀ {key}, P key → (unique ix && m.contains cmp key) = true →
    ∀ id, insert ix key id = (.error .duplicateKey, ix)
  erase {ix m} : R ix m → ∀ {key}, P key → ∀ id?,
    R (erase ix key id?) (m.remove cmp key id?) ∧ unique (erase ix key id?) = unique ix
  clear {ix m} : R ix m → R (clear ix) [] ∧ unique (clear ix) = unique ix

/-! ### Runs of calls -/

/-- A call that every key index offers. -/
inductive Call (κ : Type)
  | insert (key : κ) (id : RowId)
  | erase (key : κ) (id? : Option RowId)
  | clear
  | get (key : κ)
  | contains (key : κ)
  | size
  | isEmpty

def Call.key? : Call κ → Option κ
  | insert key _ | erase key _ | get key | contains key => some key
  | clear | size | isEmpty => none

/-- The call as it is put to a multimap. -/
def Call.request : Call κ → Request κ
  | insert key id => .add key id
  | erase key id? => .remove key id?
  | clear => .clear
  | get key => .get key
  | contains key => .contains key
  | size => .size
  | isEmpty => .isEmpty

section

variable {ι : Type} [KeyIndex ι κ]

def answer (ix : ι) : Call κ → Answer κ × ι
  | .insert key id =>
    match insert ix key id with
    | (.ok (), ix) => (.done, ix)
    | (.error fault, ix) => (.refused fault, ix)
  | .erase key id? => (.done, erase ix key id?)
  | .clear => (.done, clear ix)
  | .get key => (.ids (get ix key), ix)
  | .contains key => (.flag (contains ix key), ix)
  | .size => (.number (size ix), ix)
  | .isEmpty => (.flag (isEmpty ix), ix)

/-- The answers to calls in a row, and the last state. -/
def run (ix : ι) : List (Call κ) → List (Answer κ) × ι
  | [] => ([], ix)
  | c :: rest =>
    let (answer, ix) := answer ix c
    let (answers, ix) := run ix rest
    (answer :: answers, ix)

variable {P : κ → Prop} {R : ι → Multimap κ → Prop} {ix : ι} {m : Multimap κ}

theorem Models.answer_eq (h : Models cmp P R) (hR : R ix m) {c : Call κ}
    (hKey : ∀ key ∈ c.key?, P key) :
    (answer ix c).1 = (m.answer cmp (unique ix) (· % 2 ^ 64) c.request).1 ∧
      R (answer ix c).2 (m.answer cmp (unique ix) (· % 2 ^ 64) c.request).2 ∧
      unique (answer ix c).2 = unique ix := by
  cases c with
  | insert key id =>
    have hKey := hKey key rfl
    by_cases hOld : (unique ix && m.contains cmp key) = true
    · rw [answer, h.insert_duplicate hR hKey hOld, Call.request, Multimap.answer, if_pos hOld]
      exact ⟨rfl, hR, rfl⟩
    · obtain ⟨ix', hInsert, hR', hUnique⟩ := h.exists_insert hR hKey (by simpa using hOld) id
      rw [answer, hInsert, Call.request, Multimap.answer, if_neg hOld]
      exact ⟨rfl, hR', hUnique⟩
  | erase key id? => exact ⟨rfl, h.erase hR (hKey key rfl) id?⟩
  | clear => exact ⟨rfl, h.clear hR⟩
  | get key => exact ⟨congrArg Answer.ids (h.get_eq hR (hKey key rfl)), hR, rfl⟩
  | contains key => exact ⟨congrArg Answer.flag (h.contains_eq hR (hKey key rfl)), hR, rfl⟩
  | size => exact ⟨congrArg Answer.number (h.size_eq hR), hR, rfl⟩
  | isEmpty => exact ⟨congrArg (fun n => Answer.flag (n == 0)) (h.size_eq hR), hR, rfl⟩

/-- A key index that keeps the contract answers calls like a list of entries. -/
theorem Models.run_eq (h : Models cmp P R) {calls : List (Call κ)} (hR : R ix m)
    (hKeys : ∀ c ∈ calls, ∀ key ∈ c.key?, P key) :
    (run ix calls).1
        = (answers (Multimap.answer cmp (unique ix) (· % 2 ^ 64)) m (calls.map Call.request)).1 ∧
      R (run ix calls).2
        (answers (Multimap.answer cmp (unique ix) (· % 2 ^ 64)) m (calls.map Call.request)).2 := by
  induction calls generalizing ix m with
  | nil => exact ⟨rfl, hR⟩
  | cons c calls ih =>
    obtain ⟨hHead, hTail⟩ := List.forall_mem_cons.1 hKeys
    obtain ⟨hAnswer, hNext, hUnique⟩ := h.answer_eq hR hHead
    obtain ⟨hRest, hLast⟩ := ih hNext hTail
    rw [hUnique] at hRest hLast
    exact ⟨List.cons_eq_cons.2 ⟨hAnswer, hRest⟩, hLast⟩

end

end KeyIndex

/-- Ordered trees keep the contract for all keys of which a property holds. -/
theorem KeyTree.models [Std.TransCmp cmp] (P : κ → Prop) :
    KeyIndex.Models cmp P fun t : KeyTree κ cmp => t.Refines P where
  ascending h := h.ascending
  keys h := h.keys
  ids_ne_nil h := h.arena.ids_ne_nil
  get_eq h key _ := h.get_eq key
  contains_eq h key _ := h.contains_eq key
  count_eq h := h.count
  size_eq h := h.size_eq
  exists_insert h _ hKey hNew id := h.exists_insert hNew hKey id
  insert_duplicate h _ _ hOld id := h.insert_duplicate hOld id
  erase h key _ id? := ⟨h.erase key id?, rfl⟩
  clear h := ⟨h.clear, rfl⟩

/-! ### Hash tables -/

section

variable [BEq κ] [Hashable κ]

/-- The table stands for a multimap, and its keys have a property. -/
structure KeyTable.Refines (cmp : κ → κ → Ordering) (P : κ → Prop) (t : KeyTable κ)
    (m : Multimap κ) : Prop where
  ascending : m.Ascending cmp
  keys : ∀ e ∈ m, P e.1
  ids_ne_nil : ∀ e ∈ m, e.2 ≠ []
  get_eq : ∀ key, P key → t.get key = m.get cmp key
  /-- A key goes away with its last identity. -/
  contains_eq : ∀ key, t.contains key = !(t.get key).isEmpty
  stored : ∀ key k, t.map.getKey? key = some k → P k
  count : t.stats.totalRows = .ofNat m.total

namespace KeyTable

variable {P : κ → Prop} {t : KeyTable κ} {m : Multimap κ}

theorem refines_empty (cmp : κ → κ → Ordering) (P : κ → Prop) {t : KeyTable κ} (hMap : t.map = ∅)
    (hCount : t.stats.totalRows = 0) : t.Refines cmp P [] where
  ascending := List.Pairwise.nil
  keys := by simp
  ids_ne_nil := by simp
  get_eq key _ := by rw [get, hMap, Std.HashMap.getD_empty]; rfl
  contains_eq key := by
    rw [contains, get, hMap, Std.HashMap.contains_empty, Std.HashMap.getD_empty]
    rfl
  stored key k h := by rw [hMap, Std.HashMap.getKey?_empty] at h; cases h
  count := hCount

theorem Refines.contains_eq_contains (h : t.Refines cmp P m) {key : κ} (hKey : P key) :
    t.contains key = m.contains cmp key := by
  rw [h.contains_eq, h.get_eq key hKey, Multimap.contains_eq_get h.ids_ne_nil]

variable [EquivBEq κ] [LawfulHashable κ] [Std.TransCmp cmp]
  (hEq : ∀ k l, P k → P l → (cmp k l = .eq ↔ (k == l) = true))

include hEq

theorem Refines.insert (h : t.Refines cmp P m) {key : κ} (hKey : P key) (id : RowId) :
    Refines cmp P { t with map := t.map.insert key (t.get key ++ [id]), stats := t.stats.addRows 1 }
      (m.add cmp key id) where
  ascending := h.ascending.add key id
  keys e he := by
    rcases Multimap.key_of_mem_add he with hNew | ⟨f, hf, hOld⟩
    · exact hNew ▸ hKey
    · exact hOld ▸ h.keys f hf
  ids_ne_nil := Multimap.ids_ne_nil_add h.ids_ne_nil key id
  get_eq k hk := by
    rw [get, Std.HashMap.getD_insert, Multimap.get_add h.ascending, ← h.get_eq k hk]
    by_cases hSame : key == k
    · rw [if_pos hSame, if_pos ((hEq key k hKey hk).2 hSame), get, get,
        Std.HashMap.getD_congr hSame]
    · rw [if_neg hSame, if_neg (mt (hEq key k hKey hk).1 hSame), List.append_nil]
      rfl
  contains_eq k := by
    have hOld := h.contains_eq k
    simp only [contains, get, Std.HashMap.contains_insert, Std.HashMap.getD_insert] at hOld ⊢
    rw [hOld]
    cases key == k <;> simp
  stored a k hk := by
    rw [Std.HashMap.getKey?_insert] at hk
    split at hk
    · exact Option.some.inj hk ▸ hKey
    · exact h.stored a k hk
  count := by
    rw [Multimap.total_add]
    simp [Stats.addRows, h.count]

omit [Std.TransCmp cmp] hEq in
theorem getD_withIds (t : KeyTable κ) (key : κ) (ids : List RowId) (k : κ) :
    (t.withIds key ids).getD k [] = if key == k then ids else t.get k := by
  rw [withIds]
  cases ids with
  | nil => exact Std.HashMap.getD_erase
  | cons i ids => exact Std.HashMap.getD_insert

omit [Std.TransCmp cmp] hEq in
theorem contains_withIds (t : KeyTable κ) (key : κ) (ids : List RowId) (k : κ) :
    (t.withIds key ids).contains k = if key == k then !ids.isEmpty else t.contains k := by
  rw [withIds]
  cases ids with
  | nil =>
    show (t.map.erase key).contains k = _
    rw [Std.HashMap.contains_erase]
    cases key == k <;> rfl
  | cons i ids =>
    show (t.map.insert key (i :: ids)).contains k = _
    rw [Std.HashMap.contains_insert]
    cases key == k <;> rfl

omit [Std.TransCmp cmp] hEq in
theorem getKey?_withIds {t : KeyTable κ} {key : κ} {ids : List RowId} {a k : κ}
    (h : (t.withIds key ids).getKey? a = some k) : k = key ∨ t.map.getKey? a = some k := by
  rw [withIds] at h
  split at h
  · rw [Std.HashMap.getKey?_erase] at h
    split at h
    · cases h
    · exact Or.inr h
  · rw [Std.HashMap.getKey?_insert] at h
    split at h
    · exact Or.inl (Option.some.inj h).symm
    · exact Or.inr h

omit [EquivBEq κ] [LawfulHashable κ] [Std.TransCmp cmp] hEq in
theorem erase_eq (t : KeyTable κ) (key : κ) (id? : Option RowId) : t.erase key id? = { t with
    map := t.withIds key (id?.elim [] fun id => (t.get key).filter (· != id))
    stats := t.stats.removeRows
      (.ofNat (id?.elim (t.get key).length fun id => (t.get key).count id)) } := by
  cases id? <;> rfl

theorem Refines.erase (h : t.Refines cmp P m) {key : κ} (hKey : P key) (id? : Option RowId) :
    (t.erase key id?).Refines cmp P (m.remove cmp key id?) where
  ascending := h.ascending.remove key id?
  keys e he := by
    obtain ⟨f, hf, hOld⟩ := Multimap.key_of_mem_remove he
    exact hOld ▸ h.keys f hf
  ids_ne_nil := Multimap.ids_ne_nil_remove h.ids_ne_nil key id?
  get_eq k hk := by
    rw [erase_eq, get, getD_withIds, Multimap.get_remove h.ascending, ← h.get_eq k hk]
    by_cases hSame : key == k
    · rw [if_pos hSame, if_pos ((hEq key k hKey hk).2 hSame), get, get,
        Std.HashMap.getD_congr hSame]
    · rw [if_neg hSame, if_neg (mt (hEq key k hKey hk).1 hSame)]
  contains_eq k := by
    have hOld := h.contains_eq k
    rw [erase_eq]
    simp only [contains, contains_withIds, getD_withIds, get] at hOld ⊢
    rw [hOld]
    cases key == k <;> rfl
  stored a k hk := by
    rw [erase_eq] at hk
    rcases getKey?_withIds hk with rfl | hOld
    · exact hKey
    · exact h.stored a k hOld
  count := by
    have hTotal := Multimap.total_remove h.ascending key id?
    rw [erase_eq, h.get_eq key hKey]
    simp only [Stats.removeRows, h.count, ← hTotal, UInt64.ofNat_add]
    rw [UInt64.add_sub_cancel]

theorem models : KeyIndex.Models cmp P fun t : KeyTable κ => t.Refines cmp P where
  ascending h := h.ascending
  keys h := h.keys
  ids_ne_nil h := h.ids_ne_nil
  get_eq h key hKey := h.get_eq key hKey
  contains_eq h _ hKey := h.contains_eq_contains hKey
  count_eq h := h.count
  size_eq {t m} h := by
    show t.stats.totalRows.toNat = _
    rw [h.count]
    rfl
  exists_insert {t m} h key hKey hNew id := by
    have hOld : ¬ (t.unique && t.contains key) = true := by
      rw [h.contains_eq_contains hKey]
      exact Bool.eq_false_iff.1 hNew
    exact ⟨_, if_neg hOld, h.insert hEq hKey id, rfl⟩
  insert_duplicate {t m} h key hKey hOld id := by
    rw [← h.contains_eq_contains hKey] at hOld
    exact if_pos hOld
  erase {t m} h key hKey id? := by
    refine ⟨h.erase hEq hKey id?, ?_⟩
    rw [show KeyIndex.erase t key id? = t.erase key id? from rfl, erase_eq]
    rfl
  clear _ := ⟨refines_empty cmp P rfl rfl, rfl⟩

/-! ### The entries of a table -/

omit [EquivBEq κ] [LawfulHashable κ] [Std.TransCmp cmp] hEq in
theorem values_eq (map : Std.HashMap κ (List RowId)) : map.values = map.toList.map Prod.snd := by
  show map.inner.1.values = (Std.DHashMap.Raw.Const.toList map.inner.1).map Prod.snd
  rw [Std.DHashMap.Internal.Raw.values_eq_values_toListModel, Std.Internal.List.values_eq_map,
    Std.DHashMap.Internal.Raw.Const.toList_eq_toListModel_map, List.map_map]
  rfl

omit [Std.TransCmp cmp] hEq in
/-- The entry of the multimap that an entry of the table stands for. -/
theorem Refines.exists_lookup? (h : t.Refines cmp P m) {x : Entry κ} (hx : x ∈ t.map.toList) :
    P x.1 ∧ ∃ e, m.lookup? cmp x.1 = some e ∧ e.2 = x.2 := by
  obtain ⟨hKey, hIds⟩ := Std.HashMap.mem_toList_iff_getKey?_eq_some_and_getElem?_eq_some.1 hx
  have hP := h.stored _ _ hKey
  have hGet : t.get x.1 = x.2 := by
    rw [get, Std.HashMap.getD_eq_getD_getElem?, hIds]
    rfl
  have hContains : t.contains x.1 = true := by
    rw [contains, Std.HashMap.contains_eq_isSome_getElem?, hIds]
    rfl
  rw [h.contains_eq_contains hP, Multimap.contains, Option.isSome_iff_exists] at hContains
  obtain ⟨e, he⟩ := hContains
  rw [h.get_eq _ hP, Multimap.get, he] at hGet
  exact ⟨hP, e, he, hGet⟩

omit [Std.TransCmp cmp] hEq in
theorem Refines.exists_entry (h : t.Refines cmp P m) {e : Entry κ} (he : e ∈ m)
    (hGet : m.get cmp e.1 = e.2) : ∃ x ∈ t.map.toList, (e.1 == x.1) = true := by
  have hContains : t.contains e.1 = true := by
    rw [h.contains_eq, h.get_eq _ (h.keys e he), hGet]
    simpa using h.ids_ne_nil e he
  rw [contains, Std.HashMap.contains_eq_isSome_getElem?, Option.isSome_iff_exists] at hContains
  obtain ⟨ids, hIds⟩ := hContains
  obtain ⟨k, hk, hx⟩ := Std.HashMap.getElem?_eq_some_iff_exists_beq_and_mem_toList.1 hIds
  exact ⟨(k, ids), hx, hk⟩

/-- A table has the entries of its multimap, in some order. -/
theorem Refines.values_perm (h : t.Refines cmp P m) : t.map.values.Perm (m.map Prod.snd) := by
  -- the entries of the table, as they are in the multimap
  let entry (x : Entry κ) : Entry κ := (m.lookup? cmp x.1).getD x
  have hEntry : ∀ x ∈ t.map.toList,
      P x.1 ∧ entry x ∈ m ∧ cmp (entry x).1 x.1 = .eq ∧ (entry x).2 = x.2 := by
    intro x hx
    obtain ⟨hP, e, he, hIds⟩ := h.exists_lookup? hx
    have hKey := List.find?_some he
    simp only [entry, he, Option.getD_some]
    exact ⟨hP, List.mem_of_find?_eq_some he, by simpa using hKey, hIds⟩
  have hValues : t.map.values = (t.map.toList.map entry).map Prod.snd := by
    rw [values_eq, List.map_map]
    exact List.map_congr_left fun x hx => (hEntry x hx).2.2.2.symm
  have hNodup : m.Nodup := by
    refine List.Pairwise.imp (fun {e f} hLt hSame => ?_) h.ascending
    have hSelf : cmp f.1 f.1 = .eq := Std.ReflCmp.compare_self
    rw [hSame, hSelf] at hLt
    cases hLt
  rw [hValues]
  refine List.Perm.map _
    ((List.perm_ext_iff_of_nodup ?_ hNodup).2 fun e => ⟨fun he => ?_, fun he => ?_⟩)
  · refine List.pairwise_map.2 (Std.HashMap.distinct_keys_toList.imp_of_mem ?_)
    intro x y hx hy hDistinct hSame
    obtain ⟨hPx, -, hKeyX, -⟩ := hEntry x hx
    obtain ⟨hPy, -, hKeyY, -⟩ := hEntry y hy
    rw [← hSame] at hKeyY
    have hBeq := (hEq _ _ hPx hPy).1 (Std.TransCmp.eq_trans (Std.OrientedCmp.eq_symm hKeyX) hKeyY)
    rw [hBeq] at hDistinct
    cases hDistinct
  · obtain ⟨x, hx, rfl⟩ := List.mem_map.1 he
    exact (hEntry x hx).2.1
  · obtain ⟨x, hx, hKey⟩ := h.exists_entry he (Multimap.get_of_mem h.ascending he)
    obtain ⟨hPx, hMem, hKeyX, -⟩ := hEntry x hx
    have hSame := Std.TransCmp.eq_trans hKeyX
      (Std.OrientedCmp.eq_symm ((hEq _ _ (h.keys e he) hPx).2 hKey))
    exact List.mem_map.2 ⟨x, hx, h.ascending.eq_of_key_eq hMem he hSame⟩

/-- All identities of a table are those of its multimap, in some order. -/
theorem Refines.allIds_perm (h : t.Refines cmp P m) : t.allIds.Perm (m.pairs.map Prod.snd) := by
  rw [allIds, Multimap.map_snd_pairs, List.flatMap_def]
  exact (h.values_perm hEq).flatten

end KeyTable

/-! ### Trees and tables -/

namespace KeyIndex

/-- A tree and a hash table answer all calls alike, if the keys used are equal for the comparison
when they are equal. -/
theorem run_tree_eq_run_table [EquivBEq κ] [LawfulHashable κ] [Std.TransCmp cmp] (fanout : Nat)
    (unique : Bool) {calls : List (Call κ)}
    (hEq : ∀ k ∈ calls.filterMap Call.key?, ∀ l ∈ calls.filterMap Call.key?,
      cmp k l = .eq ↔ (k == l) = true) :
    (run (KeyTree.empty fanout unique : KeyTree κ cmp) calls).1
        = (run ({ unique } : KeyTable κ) calls).1 ∧
      (run ({ unique } : KeyTable κ) calls).2.allIds.Perm
        ((run (KeyTree.empty fanout unique : KeyTree κ cmp) calls).2.toList.map Prod.snd) := by
  have hUsed : ∀ c ∈ calls, ∀ key ∈ c.key?, key ∈ calls.filterMap Call.key? :=
    fun c hc key hKey => List.mem_filterMap.2 ⟨c, hc, hKey⟩
  have hSame : ∀ k l, k ∈ calls.filterMap Call.key? → l ∈ calls.filterMap Call.key? →
      (cmp k l = .eq ↔ (k == l) = true) := fun k l hk hl => hEq k hk l hl
  obtain ⟨hTree, hTreeLast⟩ := (KeyTree.models (· ∈ calls.filterMap Call.key?)).run_eq
    (KeyTree.refines_empty cmp _ fanout unique) hUsed
  obtain ⟨hTable, hTableLast⟩ := (KeyTable.models hSame).run_eq
    (KeyTable.refines_empty cmp _ (t := { unique }) rfl rfl) hUsed
  refine ⟨hTree.trans hTable.symm, ?_⟩
  rw [hTreeLast.toList_eq]
  exact hTableLast.allIds_perm hSame

/-- Keys of one number in three types, with an identity that is recorded twice. -/
theorem run_of_equal_numbers :
    (run ({ unique := false } : KeyTable Key) [.insert [.int32 7] 1, .insert [.int64 7] 1,
      .insert [.int64 7] 2, .insert [.null] 3, .erase [.float64 ⟨0x401c000000000000⟩] (some 1),
      .get [.int32 7], .size]).1 = [.done, .done, .done, .done, .done, .ids [2], .number 2] ∧
    (run ({ unique := false } : KeyTable Key) [.insert [.int32 7] 1, .insert [.int64 7] 1,
      .insert [.int64 7] 2, .insert [.null] 3, .erase [.float64 ⟨0x401c000000000000⟩] (some 1),
      .get [.int32 7], .size]).2.allIds.Perm [2, 3] := by
  have hEqual := @run_tree_eq_run_table Key
    (RowOrder.compareKeys ⟨[(0, .descending)], .low⟩) _ _ _ _ _ 4 false
    [.insert [.int32 7] 1, .insert [.int64 7] 1, .insert [.int64 7] 2, .insert [.null] 3,
      .erase [.float64 ⟨0x401c000000000000⟩] (some 1), .get [.int32 7], .size]
    fun k hk l hl => by
      have hFull : ∀ k ∈ [[Value.int32 7], [.int64 7], [.int64 7], [.null],
          [.float64 ⟨0x401c000000000000⟩], [.int32 7]], k.length = 1 := by decide
      exact RowOrder.compareKeys_eq_iff (hFull k hk) (hFull l hl)
  exact ⟨hEqual.1.symm.trans rfl, hEqual.2.trans (by decide)⟩

end KeyIndex

end

end IndexScan

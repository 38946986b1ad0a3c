import Mathlib.Data.List.Nodup
import Mathlib.Data.List.Perm.Basic
import IndexScan.Proofs.Index.Ledger
import IndexScan.Proofs.KeyIndex
import IndexScan.Proofs.Schema

/-!
# Files of rows

An index that stores rows keeps them twice: by identity in a row store, and their identities by key
in a key index.  The key index files the rows of the ledger: under every key it has the identities
of the rows with that key, in the order of the ledger.  This says more than which pairs there are,
and it is what every insertion and removal keeps (`RowFile.Holds.exists_insert`,
`RowFile.Holds.erase`), whichever key index it is.  A multimap that files a ledger lists it sorted
by key, and rows with equal keys in the order in which they came (`Files.filter_sorted`).
-/

namespace IndexScan

namespace RowOrder

variable {o : RowOrder} {m : Multimap Key} {log : List Row} {key : Key}

theorem keyOf_beq_iff (hKey : o.Full key) {r : Row} :
    o.keyOf r == key ↔ o.compareKeys (o.keyOf r) key = .eq :=
  (compareKeys_eq_iff (full_keyOf o r) hKey).symm

/-- The rows of a ledger with a key. -/
def withKey (o : RowOrder) (log : List Row) (key : Key) : List Row := log.filter (o.keyOf · == key)

/-- Under every key a multimap has the rows with that key, in the order of the ledger. -/
def Files (o : RowOrder) (m : Multimap Key) (log : List Row) : Prop :=
  ∀ key, o.Full key → m.get o.compareKeys key = (o.withKey log key).map Row.id

theorem files_nil : o.Files [] [] := fun _ _ => rfl

theorem Files.insert (h : o.Files m log) (hAscending : m.Ascending o.compareKeys) (r : Row) :
    o.Files (m.add o.compareKeys (o.keyOf r) r.id) (log ++ [r]) := by
  intro key hKey
  rw [Multimap.get_add hAscending, h key hKey, withKey, withKey, List.filter_append,
    List.map_append]
  by_cases hEq : o.keyOf r == key
  · simp [hEq, (keyOf_beq_iff hKey).1 hEq]
  · have hOther := mt (keyOf_beq_iff hKey).2 hEq
    simp [hEq, hOther]

theorem Files.erase (h : o.Files m log) (hAscending : m.Ascending o.compareKeys)
    (hNodup : (log.map Row.id).Nodup) {r : Row} (hr : r ∈ log) :
    o.Files (m.remove o.compareKeys (o.keyOf r) (some r.id)) (log.filter (·.id != r.id)) := by
  intro key hKey
  rw [Multimap.get_remove hAscending, h key hKey, Option.elim_some]
  have hComm : o.withKey (log.filter (·.id != r.id)) key
      = (o.withKey log key).filter (·.id != r.id) := by
    simp only [withKey, List.filter_filter, Bool.and_comm]
  rw [hComm]
  split
  · rw [List.filter_map]
    rfl
  · next hOther =>
    -- the only row with the identity has another key
    rw [List.filter_eq_self.2]
    intro q hq
    obtain ⟨hq, hKeyOf⟩ := List.mem_filter.1 hq
    rw [bne_iff_ne]
    intro hId
    obtain rfl := List.inj_on_of_nodup_map hNodup hq hr hId
    exact hOther ((keyOf_beq_iff hKey).1 hKeyOf)

theorem filter_withKey (log : List Row) {own : Key} (hOwn : o.Full own) (hKey : o.Full key) :
    (o.withKey log own).filter (o.keyOf · == key)
      = if o.compareKeys own key = .eq then o.withKey log key else [] := by
  rw [withKey, List.filter_filter, withKey]
  split
  · next hEq =>
    refine List.filter_congr fun r _ => ?_
    rw [Bool.and_eq_left_iff_imp]
    intro hr
    rw [keyOf_beq_iff hOwn, Std.TransCmp.congr_right hEq]
    exact (keyOf_beq_iff hKey).1 hr
  · next hNe =>
    refine List.filter_eq_nil_iff.2 fun r _ hr => hNe ?_
    obtain ⟨hr, hr'⟩ := Bool.and_eq_true_iff.1 hr
    rw [← Std.TransCmp.congr_left ((keyOf_beq_iff hOwn).1 hr')]
    exact (keyOf_beq_iff hKey).1 hr

/-! ### The ledger in order -/

/-- The rows of a ledger, by the entries of a multimap. -/
def sorted (o : RowOrder) (m : Multimap Key) (log : List Row) : List (Key × Row) :=
  m.flatMap fun e => (o.withKey log e.1).map (e.1, ·)

theorem mem_sorted {x : Key × Row} :
    x ∈ o.sorted m log ↔ (∃ e ∈ m, e.1 = x.1) ∧ x.2 ∈ log ∧ o.keyOf x.2 == x.1 := by
  rw [sorted, List.mem_flatMap]
  constructor
  · rintro ⟨e, he, hx⟩
    obtain ⟨r, hr, rfl⟩ := List.mem_map.1 hx
    exact ⟨⟨e, he, rfl⟩, List.mem_filter.1 hr⟩
  · rintro ⟨⟨e, he, hKey⟩, hr⟩
    exact ⟨e, he, List.mem_map.2 ⟨x.2, List.mem_filter.2 (hKey ▸ hr), by rw [hKey]⟩⟩

theorem map_snd_sorted (o : RowOrder) (m : Multimap Key) (log : List Row) :
    (o.sorted m log).map Prod.snd = m.flatMap fun e => o.withKey log e.1 := by
  simp only [sorted, List.map_flatMap, List.map_map]
  refine List.flatMap_congr fun e _ => ?_
  exact List.map_id _

theorem sorted_ascending (log : List Row) (hAscending : m.Ascending o.compareKeys) :
    (o.sorted m log).Pairwise fun x y => (o.compareKeys x.1 y.1).isLE := by
  refine List.pairwise_flatMap.2 ⟨fun e _ => ?_, hAscending.imp fun {e f} hLt x hx y hy => ?_⟩
  · refine List.pairwise_map.2 (List.pairwise_of_forall fun _ _ => ?_)
    exact Std.ReflCmp.isLE_rfl
  · obtain ⟨-, -, rfl⟩ := List.mem_map.1 hx
    obtain ⟨-, -, rfl⟩ := List.mem_map.1 hy
    exact Ordering.isLE_of_eq_lt hLt

theorem Files.exists_entry (h : o.Files m log) (hFull : ∀ e ∈ m, o.Full e.1) {r : Row}
    (hr : r ∈ log) : ∃ e ∈ m, o.keyOf r == e.1 := by
  have hMem : r.id ∈ m.get o.compareKeys (o.keyOf r) := by
    rw [h (o.keyOf r) (full_keyOf o r)]
    refine List.mem_map_of_mem (List.mem_filter.2 ⟨hr, ?_⟩)
    exact (keyOf_beq_iff (full_keyOf o r)).2 Std.ReflCmp.compare_self
  obtain ⟨e, he, hKey, -⟩ := Multimap.exists_of_mem_get hMem
  exact ⟨e, he, (keyOf_beq_iff (hFull e he)).2 (Std.OrientedCmp.eq_symm hKey)⟩

section

variable (h : o.Files m log) (hAscending : m.Ascending o.compareKeys)
  (hFull : ∀ e ∈ m, o.Full e.1)

include h hAscending hFull

theorem Files.sorted_pairs : (o.sorted m log).map (fun x => (x.1, x.2.id)) = m.pairs := by
  have hEntry : ∀ e ∈ m, (o.withKey log e.1).map Row.id = e.2 := fun e he =>
    (h e.1 (hFull e he)).symm.trans (Multimap.get_of_mem hAscending he)
  rw [sorted, List.map_flatMap, Multimap.pairs]
  refine List.flatMap_congr fun e he => ?_
  rw [List.map_map, ← hEntry e he, List.map_map]
  rfl

theorem Files.sorted_perm (hNodup : log.Nodup) : ((o.sorted m log).map Prod.snd).Perm log := by
  have hSame : ∀ e ∈ m, ∀ r ∈ o.withKey log e.1, o.compareKeys (o.keyOf r) e.1 = .eq :=
    fun e he r hr => (keyOf_beq_iff (hFull e he)).1 (List.mem_filter.1 hr).2
  rw [map_snd_sorted]
  refine (List.perm_ext_iff_of_nodup ?_ hNodup).2 fun r => ⟨fun hr => ?_, fun hr => ?_⟩
  · refine List.nodup_flatMap.2 ⟨fun e _ => hNodup.filter _, hAscending.imp_of_mem ?_⟩
    intro e f he hf hLt r hre hrf
    -- a row has one key only, and the keys of two entries differ
    have hEq := Std.TransCmp.eq_trans (Std.OrientedCmp.eq_symm (hSame e he r hre))
      (hSame f hf r hrf)
    rw [hLt] at hEq
    cases hEq
  · obtain ⟨e, -, hr⟩ := List.mem_flatMap.1 hr
    exact (List.mem_filter.1 hr).1
  · obtain ⟨e, he, hKey⟩ := h.exists_entry hFull hr
    exact List.mem_flatMap.2 ⟨e, he, List.mem_filter.2 ⟨hr, hKey⟩⟩

theorem Files.filter_sorted (hKey : o.Full key) :
    ((o.sorted m log).map Prod.snd).filter (o.keyOf · == key) = o.withKey log key := by
  obtain ⟨below, own, above, hs⟩ := hAscending.exists_split key
  have hMem : ∀ e, e ∈ below ∨ e ∈ own ∨ e ∈ above → e ∈ m := by
    intro e he
    simpa [hs.eq] using he
  have hBelow : below.flatMap (fun e => (o.withKey log e.1).filter (o.keyOf · == key)) = [] := by
    refine List.flatMap_eq_nil_iff.2 fun e he => ?_
    rw [filter_withKey log (hFull e (hMem e (Or.inl he))) hKey, if_neg (by simp [hs.below_lt e he])]
  have hAbove : above.flatMap (fun e => (o.withKey log e.1).filter (o.keyOf · == key)) = [] := by
    refine List.flatMap_eq_nil_iff.2 fun e he => ?_
    rw [filter_withKey log (hFull e (hMem e (Or.inr (Or.inr he)))) hKey,
      if_neg (by simp [hs.above_gt e he])]
  rw [map_snd_sorted, List.filter_flatMap, hs.eq, List.flatMap_append, List.flatMap_append, hBelow,
    hAbove, List.nil_append, List.append_nil]
  cases own with
  | none =>
    have hNone : (o.withKey log key).map Row.id = [] := by rw [← h key hKey, hs.get_eq]; rfl
    exact (List.map_eq_nil_iff.1 hNone).symm
  | some e =>
    have hOwn := filter_withKey log (hFull e (hMem e (Or.inr (Or.inl rfl)))) hKey
    rw [if_pos (hs.own_eq e rfl)] at hOwn
    simpa using hOwn

end

theorem Files.total_eq (h : o.Files m log) (hAscending : m.Ascending o.compareKeys)
    (hFull : ∀ e ∈ m, o.Full e.1) (hNodup : log.Nodup) : m.total = log.length := by
  rw [← Multimap.length_pairs, ← h.sorted_pairs hAscending hFull, List.length_map,
    ← (h.sorted_perm hAscending hFull hNodup).length_eq, List.length_map]

/-- What is found under any key, one of another length included. -/
theorem Files.get_eq (h : o.Files m log) (hAscending : m.Ascending o.compareKeys)
    (hFull : ∀ e ∈ m, o.Full e.1) (key : Key) : m.get o.compareKeys key
      = (log.filter fun r => o.compareKeys (o.keyOf r) key == .eq).map Row.id := by
  obtain ⟨below, own, above, hs⟩ := hAscending.exists_split key
  cases own with
  | none =>
    have hNone : ∀ r ∈ log, ¬ (o.compareKeys (o.keyOf r) key == .eq) = true := by
      intro r hr hEq
      obtain ⟨e, he, hKey⟩ := h.exists_entry hFull hr
      have hSame := Std.TransCmp.eq_trans (Std.OrientedCmp.eq_symm
        ((keyOf_beq_iff (hFull e he)).1 hKey)) (beq_iff_eq.1 hEq)
      rw [hs.eq] at he
      rcases List.mem_append.1 he with he | he
      · rw [hs.below_lt e he] at hSame
        cases hSame
      · rw [hs.above_gt e he] at hSame
        cases hSame
    rw [hs.get_eq, List.filter_eq_nil_iff.2 hNone]
    rfl
  | some e =>
    have he : e ∈ m := by rw [hs.eq]; simp
    have hKey := hs.own_eq e rfl
    have hSame : o.withKey log e.1 = log.filter fun r => o.compareKeys (o.keyOf r) key == .eq := by
      refine List.filter_congr fun r _ => ?_
      rw [Bool.eq_iff_iff, keyOf_beq_iff (hFull e he), Std.TransCmp.congr_right hKey, beq_iff_eq]
    have hOwn : m.get o.compareKeys key = m.get o.compareKeys e.1 := by
      rw [Multimap.get_of_mem hAscending he, hs.get_eq]
      rfl
    rw [hOwn, h e.1 (hFull e he), hSame]

end RowOrder

/-! ### A row store and a key index -/

/-- Stored rows, with a key index of their identities. -/
structure RowFile (K : Type) where
  store : RowStore
  keys : K

namespace RowFile

variable {K : Type} [KeyIndex K Key]

def insert (o : RowOrder) (f : RowFile K) (r : Row) : Except Error Unit × RowFile K :=
  match f.store.check r with
  | .error e => (.error e, f)
  | .ok () =>
    match KeyIndex.insert f.keys (o.keyOf r) r.id with
    | (.ok (), keys) => (.ok (), { store := f.store.insert r, keys })
    | (.error .duplicateKey, keys) =>
      (.error (.duplicateKey f.store.index (keyValue (o.keyOf r))), { f with keys })

def erase (o : RowOrder) (f : RowFile K) (id : RowId) : Option Row × RowFile K :=
  match f.store.row? id with
  | none => (none, f)
  | some r =>
    (some r, { store := f.store.erase id, keys := KeyIndex.erase f.keys (o.keyOf r) (some id) })

def filing (o : RowOrder) (f : RowFile K) : Filing := ⟨f.store.table, o, KeyIndex.unique f.keys⟩

/-- The file holds the rows of a ledger, if a relation makes its key index a multimap. -/
structure Holds (R : K → Multimap Key → Prop) (o : RowOrder) (f : RowFile K) (log : List Row) :
    Prop where
  columns : ∀ c ∈ o.columns, c.1 < f.store.table.width
  widths : ∀ r ∈ log, r.width = f.store.table.width
  store : f.store.Keeps log
  keys : ∃ m, R f.keys m ∧ o.Files m log

variable {R : K → Multimap Key → Prop} {o : RowOrder} {f : RowFile K} {log : List Row} {r : Row}

omit [KeyIndex K Key] in
theorem holds_empty {index : String} {t : Table} {keys : K}
    (hColumns : ∀ c ∈ o.columns, c.1 < t.width) (hKeys : R keys []) :
    RowFile.Holds R o ⟨{ index, table := t }, keys⟩ [] where
  columns := hColumns
  widths _ hr := absurd hr List.not_mem_nil
  store := RowStore.keeps_empty index t
  keys := ⟨[], hKeys, RowOrder.files_nil⟩

theorem insert_of_check (hCheck : f.store.check r = .ok ()) :
    f.insert o r = match KeyIndex.insert f.keys (o.keyOf r) r.id with
      | (.ok (), keys) => (.ok (), { store := f.store.insert r, keys })
      | (.error .duplicateKey, keys) =>
        (.error (.duplicateKey f.store.index (keyValue (o.keyOf r))), { f with keys }) := by
  rw [insert, hCheck]

/-- The store refuses a row for the first two reasons, and the keys for the third one. -/
theorem refusal_eq (h : f.store.Keeps log) (r : Row) :
    (f.filing o).refusal f.store.index log r = match f.store.check r with
      | .error e => some e
      | .ok _ =>
        if KeyIndex.unique f.keys && log.any (o.keyOf · == o.keyOf r) then
          some (.duplicateKey f.store.index (keyValue (o.keyOf r)))
        else none := by
  rw [Filing.refusal, h.check_eq, filing]
  cases f.store.table.validate r with
  | error e => rfl
  | ok _ => cases log.any (·.id == r.id) <;> rfl

section

variable (hModels : KeyIndex.Models o.compareKeys o.Full R)

include hModels

/-- A key is taken when a row of the ledger has it. -/
theorem contains_eq_any {keys : K} {m : Multimap Key} (hKeys : R keys m) (hFiles : o.Files m log)
    {key : Key} (hKey : o.Full key) :
    m.contains o.compareKeys key = log.any (o.keyOf · == key) := by
  rw [Multimap.contains_eq_get (hModels.ids_ne_nil hKeys), hFiles key hKey, List.isEmpty_map,
    RowOrder.withKey, Bool.eq_iff_iff]
  simp

theorem Holds.exists_insert (h : f.Holds R o log)
    (hAccepts : (f.filing o).refusal f.store.index log r = none) :
    ∃ f', f.insert o r = (.ok (), f') ∧ f'.Holds R o (log ++ [r]) ∧ f'.filing o = f.filing o ∧
      f'.store.index = f.store.index := by
  obtain ⟨m, hKeys, hFiles⟩ := h.keys
  have hValid := Filing.accepts_iff.2 hAccepts
  simp only [Filing.accepts, filing, Bool.and_eq_true, Bool.not_eq_true'] at hValid
  obtain ⟨⟨hValid, hNew⟩, hKey⟩ := hValid
  have hCheck : f.store.check r = .ok () := by
    rw [h.store.check_eq, isOk_iff.1 hValid, hNew]
    rfl
  rw [← contains_eq_any hModels hKeys hFiles (RowOrder.full_keyOf o r)] at hKey
  obtain ⟨keys, hInsert, hKeys', hUnique⟩ :=
    hModels.exists_insert hKeys (RowOrder.full_keyOf o r) hKey r.id
  refine ⟨{ store := f.store.insert r, keys }, ?_, ⟨h.columns, ?_, h.store.insert hNew, _, hKeys',
    hFiles.insert (hModels.ascending hKeys) r⟩, ?_, rfl⟩
  · rw [insert_of_check hCheck, hInsert]
  · intro q hq
    rcases List.mem_append.1 hq with hq | hq
    · exact h.widths q hq
    · obtain rfl := List.mem_singleton.1 hq
      exact Table.width_eq_of_validate (isOk_iff.1 hValid)
  · exact congrArg (Filing.mk f.store.table o) hUnique

/-- A row that is refused leaves no trace, whichever check it fails. -/
theorem Holds.insert_refused (h : f.Holds R o log) {e : Error}
    (hRefused : (f.filing o).refusal f.store.index log r = some e) :
    f.insert o r = (.error e, f) := by
  obtain ⟨m, hKeys, hFiles⟩ := h.keys
  rw [refusal_eq h.store] at hRefused
  cases hCheck : f.store.check r with
  | error e' =>
    rw [hCheck] at hRefused
    obtain rfl := Option.some.inj hRefused
    rw [insert, hCheck]
  | ok _ =>
    rw [hCheck, ← contains_eq_any hModels hKeys hFiles (RowOrder.full_keyOf o r)] at hRefused
    cases hTaken : KeyIndex.unique f.keys && m.contains o.compareKeys (o.keyOf r) with
    | false =>
      rw [hTaken] at hRefused
      cases hRefused
    | true =>
      rw [hTaken] at hRefused
      obtain rfl := Option.some.inj hRefused
      rw [insert_of_check hCheck, hModels.insert_duplicate hKeys (RowOrder.full_keyOf o r) hTaken]

theorem Holds.erase (h : f.Holds R o log) (id : RowId) :
    (f.erase o id).1 = log.find? (·.id == id) ∧
      (f.erase o id).2.Holds R o (log.filter (·.id != id)) ∧
      (f.erase o id).2.filing o = f.filing o ∧ (f.erase o id).2.store.index = f.store.index := by
  rw [RowFile.erase, ← h.store.row?_eq]
  cases hRow : f.store.row? id with
  | none =>
    have hAbsent : log.filter (·.id != id) = log := by
      refine List.filter_eq_self.2 fun r hr => ?_
      have := List.any_eq_false.1 (h.store.row?_eq_none.1 hRow) r hr
      simpa using this
    rw [hAbsent]
    exact ⟨rfl, h, rfl, rfl⟩
  | some r =>
    obtain ⟨hr, rfl⟩ := h.store.row?_eq_some hRow
    obtain ⟨m, hKeys, hFiles⟩ := h.keys
    obtain ⟨hKeys', hUnique⟩ := hModels.erase hKeys (RowOrder.full_keyOf o r) (some r.id)
    refine ⟨rfl, ⟨h.columns, fun q hq => h.widths q (List.mem_filter.1 hq).1, h.store.erase r.id,
      _, hKeys', hFiles.erase (hModels.ascending hKeys) h.store.nodup hr⟩, ?_, rfl⟩
    exact congrArg (Filing.mk f.store.table o) hUnique

theorem Holds.totalRows_eq (h : f.Holds R o log) :
    (KeyIndex.stats f.keys).totalRows = .ofNat log.length := by
  obtain ⟨m, hKeys, hFiles⟩ := h.keys
  rw [hModels.count_eq hKeys, hFiles.total_eq (hModels.ascending hKeys) (hModels.keys hKeys)
    (List.Nodup.of_map _ h.store.nodup)]

end

end RowFile

end IndexScan

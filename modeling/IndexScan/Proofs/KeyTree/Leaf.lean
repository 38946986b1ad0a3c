import IndexScan.Proofs.KeyTree.Descent

/-!
# Leaves as multimaps

A leaf that lists a multimap finds, inserts and removes like the multimap.  Everything is read
off from the split of the multimap at the key: the place of the key among the keys of the leaf is
the number of entries below it.
-/

namespace IndexScan

namespace Node

variable {κ : Type} {cmp : κ → κ → Ordering}

/-- The leaf lists a multimap. -/
structure Lists (n : Node κ) (m : Multimap κ) : Prop where
  keys : n.keys = m.map Prod.fst
  ids : n.ids = m.map Prod.snd

/-- The leaf that lists another multimap instead. -/
def relist (n : Node κ) (m : Multimap κ) : Node κ :=
  { n with keys := m.map Prod.fst, ids := m.map Prod.snd }

theorem unlinked_relist (n : Node κ) (m : Multimap κ) :
    (n.relist m).unlinked = n.unlinked.relist m := by
  rw [unlinked_eq, unlinked_eq]
  rfl

variable {n : Node κ} {m below above : Multimap κ} {own : Option (Entry κ)} {key : κ}

theorem slot_eq (hn : n.Lists m) (h : Multimap.Split cmp key m below own above) :
    n.slot cmp key = below.length := by
  rw [slot, hn.keys, h.eq, List.map_append, takeWhile_length_append, List.length_map]
  · intro k hk
    obtain ⟨e, he, rfl⟩ := List.mem_map.1 hk
    simp [h.below_lt e he]
  · intro k hk
    obtain ⟨e, he, rfl⟩ := List.mem_map.1 hk
    rcases List.mem_append.1 he with he | he
    · simp [h.own_eq e (Option.mem_toList.1 he)]
    · simp [h.above_gt e he]

/-- The key at the place of a key is equal to it only if it is the key of an own entry. -/
theorem key_at_slot (hn : n.Lists m) (h : Multimap.Split cmp key m below own above) :
    (n.keys[below.length]?).any (cmp · key == .eq) = own.isSome := by
  have hAt : n.keys[below.length]? = ((own.toList ++ above).map Prod.fst)[0]? := by
    rw [hn.keys, h.eq, List.map_append, List.getElem?_append_right (by simp)]
    simp
  rw [hAt]
  cases own with
  | some e => simp [h.own_eq e rfl]
  | none =>
    cases above with
    | nil => rfl
    | cons e above => simp [h.above_gt e (by simp)]

theorem find?_eq (hn : n.Lists m) (h : Multimap.Split cmp key m below own above) :
    n.find? cmp key = own.map fun _ => below.length := by
  rw [find?, slot_eq hn h, key_at_slot hn h]
  cases own <;> rfl

theorem ids_at_slot {e : Entry κ} (hn : n.Lists m)
    (h : Multimap.Split cmp key m below (some e) above) : n.ids[below.length]? = some e.2 := by
  rw [hn.ids, h.eq, List.map_append, List.getElem?_append_right (by simp)]
  simp

theorem insertAt_eq (hn : n.Lists m) (h : Multimap.Split cmp key m below own above) (id : RowId) :
    n.insertAt cmp (n.slot cmp key) key id = some (n.relist (Multimap.add cmp key id m)) := by
  rw [insertAt, slot_eq hn h, key_at_slot hn h, relist, h.add_eq]
  cases own with
  | some e =>
    have hKeys : n.keys = (below ++ (e.1, e.2 ++ [id]) :: above).map Prod.fst := by
      rw [hn.keys, h.eq]
      simp
    have hIds : n.ids.set below.length (e.2 ++ [id])
        = (below ++ (e.1, e.2 ++ [id]) :: above).map Prod.snd := by
      rw [hn.ids, h.eq]
      simp
    simp [ids_at_slot hn h, ← hKeys, ← hIds]
  | none =>
    have hKeys := insertIdx_length (below.map Prod.fst) (above.map Prod.fst) key
    have hIds := insertIdx_length (below.map Prod.snd) (above.map Prod.snd) [id]
    rw [List.length_map] at hKeys hIds
    simp [hn.keys, hn.ids, h.eq, hKeys, hIds]

theorem removeAt_eq {e : Entry κ} (hn : n.Lists m)
    (h : Multimap.Split cmp key m below (some e) above) (id? : Option RowId) :
    ∃ k, n.removeAt below.length id? = some (k, n.relist (Multimap.remove cmp key id? m)) ∧
      k + Multimap.total (Multimap.remove cmp key id? m) = Multimap.total m := by
  have hIds := ids_at_slot hn h
  rw [relist, h.remove_eq, removeAt, hIds]
  simp only [Option.bind_some, Multimap.without]
  generalize hRest : id?.elim [] (fun id => e.2.filter (· != id)) = rest
  have hLess : rest.length ≤ e.2.length := by
    rw [← hRest]
    cases id? <;> simp [List.length_filter_le]
  cases rest with
  | nil =>
    refine ⟨e.2.length, ?_, ?_⟩
    · simp [hRest, hn.keys, hn.ids, h.eq, List.eraseIdx_append_of_length_le]
    · simp [h.eq]
      omega
  | cons i rest =>
    refine ⟨e.2.length - (i :: rest).length, ?_, ?_⟩
    · simp [hRest, hn.keys, hn.ids, h.eq]
    · simp [h.eq]
      simp at hLess
      omega

end Node

end IndexScan

import IndexScan.Row

/-!
# Ordered multimaps

What an ordered tree is meant to be: a list of keys in strictly ascending order, each with the
row identities recorded under it.  Every operation looks for one key, and `Split` is the answer
to that search: what is below the key, its own entry if there is one, what is above.  Each
operation then has one equation in terms of a split, and a split of a part of the list is one of
the whole list when the rest is on the right side of the key (`Split.append`).
-/

namespace IndexScan

/-- A key and the identities recorded under it. -/
abbrev Entry (κ : Type) := κ × List RowId

abbrev Multimap (κ : Type) := List (Entry κ)

namespace Multimap

variable {κ : Type} (cmp : κ → κ → Ordering)

/-- Records an identity after the others under its key. -/
def add (key : κ) (id : RowId) : Multimap κ → Multimap κ
  | [] => [(key, [id])]
  | (k, ids) :: rest =>
    match cmp k key with
    | .lt => (k, ids) :: add key id rest
    | .eq => (k, ids ++ [id]) :: rest
    | .gt => (key, [id]) :: (k, ids) :: rest

/-- What is left of an entry without one identity, or without all. -/
def without (id? : Option RowId) (e : Entry κ) : Option (Entry κ) :=
  match id?.elim [] (fun id => e.2.filter (· != id)) with
  | [] => none
  | ids => some (e.1, ids)

/-- Forgets every occurrence of an identity under a key, or all identities.  The key goes away
with the last one. -/
def remove (key : κ) (id? : Option RowId) : Multimap κ → Multimap κ
  | [] => []
  | e :: rest =>
    if cmp e.1 key = .eq then (without id? e).toList ++ rest else e :: remove key id? rest

/-- The entry of a key. -/
def lookup? (key : κ) (m : Multimap κ) : Option (Entry κ) := List.find? (cmp ·.1 key == .eq) m

def get (key : κ) (m : Multimap κ) : List RowId := (lookup? cmp key m).elim [] Prod.snd

def contains (key : κ) (m : Multimap κ) : Bool := (lookup? cmp key m).isSome

/-- The identities in ascending order of their keys, each with its key. -/
def pairs (m : Multimap κ) : List (κ × RowId) := m.flatMap fun e => e.2.map (e.1, ·)

/-- The number of identities. -/
def total (m : Multimap κ) : Nat := (m.flatMap Prod.snd).length

def Ascending (m : Multimap κ) : Prop := m.Pairwise fun e f => cmp e.1 f.1 = .lt

variable {cmp}

/-- The place of a key in a multimap. -/
structure Split (cmp : κ → κ → Ordering) (key : κ) (m : Multimap κ) (below : Multimap κ)
    (own : Option (Entry κ)) (above : Multimap κ) : Prop where
  eq : m = below ++ (own.toList ++ above)
  below_lt : ∀ e ∈ below, cmp e.1 key = .lt
  own_eq : ∀ e ∈ own, cmp e.1 key = .eq
  above_gt : ∀ e ∈ above, cmp e.1 key = .gt

variable {key : κ} {m below above : Multimap κ} {own : Option (Entry κ)}

theorem Ascending.exists_split [Std.TransCmp cmp] (h : Ascending cmp m) (key : κ) :
    ∃ below own above, Split cmp key m below own above := by
  induction m with
  | nil => exact ⟨[], none, [], rfl, by simp, by simp, by simp⟩
  | cons e rest ih =>
    obtain ⟨hHead, hRest⟩ := List.pairwise_cons.1 h
    cases he : cmp e.1 key with
    | lt =>
      obtain ⟨below, own, above, hs⟩ := ih hRest
      refine ⟨e :: below, own, above, by rw [hs.eq, List.cons_append], ?_, hs.own_eq, hs.above_gt⟩
      exact List.forall_mem_cons.2 ⟨he, hs.below_lt⟩
    | eq =>
      refine ⟨[], some e, rest, rfl, by simp, by simpa using he, fun f hf => ?_⟩
      exact Std.TransCmp.gt_of_gt_of_eq (Std.OrientedCmp.gt_of_lt (hHead f hf)) he
    | gt =>
      refine ⟨[], none, e :: rest, rfl, by simp, by simp,
        List.forall_mem_cons.2 ⟨he, fun f hf => ?_⟩⟩
      exact Std.TransCmp.gt_trans (Std.OrientedCmp.gt_of_lt (hHead f hf)) he

namespace Split

/-- A split of a part is one of the whole, with what is around the part on either side. -/
theorem append (h : Split cmp key m below own above) {before after : Multimap κ}
    (hBefore : ∀ e ∈ before, cmp e.1 key = .lt) (hAfter : ∀ e ∈ after, cmp e.1 key = .gt) :
    Split cmp key (before ++ (m ++ after)) (before ++ below) own (above ++ after) where
  eq := by simp [h.eq]
  below_lt e he := (List.mem_append.1 he).elim (hBefore e) (h.below_lt e)
  own_eq := h.own_eq
  above_gt e he := (List.mem_append.1 he).elim (h.above_gt e) (hAfter e)

theorem add_eq (h : Split cmp key m below own above) (id : RowId) :
    add cmp key id m = below ++ own.elim (key, [id]) (fun e => (e.1, e.2 ++ [id])) :: above := by
  have hAbove : own = none → add cmp key id above = (key, [id]) :: above := by
    intro _
    cases above with
    | nil => rfl
    | cons e rest => simp [add, h.above_gt e (by simp)]
  have hOwn : add cmp key id (own.toList ++ above)
      = own.elim (key, [id]) (fun e => (e.1, e.2 ++ [id])) :: above := by
    cases own with
    | none => exact hAbove rfl
    | some e => simp [add, h.own_eq e rfl]
  rw [h.eq, ← hOwn]
  have hLt := h.below_lt
  clear h hAbove hOwn
  induction below with
  | nil => rfl
  | cons e rest ih =>
    rw [List.cons_append, add, hLt e (by simp)]
    exact congrArg (e :: ·) (ih fun f hf => hLt f (List.mem_cons_of_mem e hf))

theorem length_add (h : Split cmp key m below own above) (id : RowId) :
    (add cmp key id m).length = m.length + if own.isSome then 0 else 1 := by
  rw [h.add_eq, h.eq]
  cases own <;> simp [Nat.add_assoc]

theorem remove_eq (h : Split cmp key m below own above) (id? : Option RowId) :
    remove cmp key id? m = below ++ ((own.bind (without id?)).toList ++ above) := by
  have hSkip : ∀ l l' : Multimap κ, (∀ e ∈ l, cmp e.1 key ≠ .eq) →
      remove cmp key id? (l ++ l') = l ++ remove cmp key id? l' := by
    intro l l' hl
    induction l with
    | nil => rfl
    | cons e rest ih =>
      rw [List.cons_append, remove, if_neg (hl e (by simp))]
      exact congrArg (e :: ·) (ih fun f hf => hl f (List.mem_cons_of_mem e hf))
  rw [h.eq, hSkip below _ fun e he => by simp [h.below_lt e he]]
  cases own with
  | none =>
    have := hSkip above [] fun e he => by simp [h.above_gt e he]
    simpa [remove] using this
  | some e => simp [remove, h.own_eq e rfl]

theorem lookup?_eq (h : Split cmp key m below own above) : lookup? cmp key m = own := by
  have hBelow : List.find? (cmp ·.1 key == .eq) below = none :=
    List.find?_eq_none.2 fun e he => by simp [h.below_lt e he]
  have hAbove : List.find? (cmp ·.1 key == .eq) above = none :=
    List.find?_eq_none.2 fun e he => by simp [h.above_gt e he]
  rw [lookup?, h.eq, List.find?_append, hBelow, List.find?_append, hAbove]
  cases own with
  | none => rfl
  | some e => simp [h.own_eq e rfl]

theorem get_eq (h : Split cmp key m below own above) :
    get cmp key m = own.elim [] Prod.snd := by rw [get, h.lookup?_eq]

theorem contains_eq (h : Split cmp key m below own above) :
    contains cmp key m = own.isSome := by rw [contains, h.lookup?_eq]

/-! What is around a part that the key belongs in is left alone. -/

section

variable {before after : Multimap κ} (h : Split cmp key m below own above)
  (hBefore : ∀ e ∈ before, cmp e.1 key = .lt) (hAfter : ∀ e ∈ after, cmp e.1 key = .gt)

include h hBefore hAfter

theorem add_append (id : RowId) :
    add cmp key id (before ++ (m ++ after)) = before ++ (add cmp key id m ++ after) := by
  rw [(h.append hBefore hAfter).add_eq, h.add_eq]
  simp

theorem remove_append (id? : Option RowId) :
    remove cmp key id? (before ++ (m ++ after)) = before ++ (remove cmp key id? m ++ after) := by
  rw [(h.append hBefore hAfter).remove_eq, h.remove_eq]
  simp

theorem get_append : get cmp key (before ++ (m ++ after)) = get cmp key m := by
  rw [(h.append hBefore hAfter).get_eq, h.get_eq]

theorem contains_append : contains cmp key (before ++ (m ++ after)) = contains cmp key m := by
  rw [(h.append hBefore hAfter).contains_eq, h.contains_eq]

end

end Split

/-! ### What is kept -/

@[simp] theorem total_nil : total ([] : Multimap κ) = 0 := rfl

@[simp] theorem total_cons (e : Entry κ) (m : Multimap κ) :
    total (e :: m) = e.2.length + total m := by simp [total]

@[simp] theorem total_append (m n : Multimap κ) : total (m ++ n) = total m + total n := by
  simp [total]

theorem map_snd_pairs (m : Multimap κ) : m.pairs.map Prod.snd = m.flatMap Prod.snd := by
  have hIds : ∀ e : Entry κ, (e.2.map (e.1, ·)).map Prod.snd = e.2 := by
    intro e
    rw [List.map_map]
    exact List.map_id _
  rw [pairs, List.map_flatMap]
  exact congrArg m.flatMap (funext hIds)

theorem length_pairs (m : Multimap κ) : m.pairs.length = m.total := by
  rw [total, ← map_snd_pairs, List.length_map]

theorem total_add (m : Multimap κ) (key : κ) (id : RowId) :
    total (add cmp key id m) = total m + 1 := by
  induction m with
  | nil => rfl
  | cons e rest ih =>
    rw [add]
    split
    · rw [total_cons, total_cons, ih, Nat.add_assoc]
    · simp only [total_cons, List.length_append, List.length_singleton]
      omega
    · simp only [total_cons, List.length_singleton]
      omega

theorem key_of_mem_add {id : RowId} {e : Entry κ} (he : e ∈ add cmp key id m) :
    e.1 = key ∨ ∃ f ∈ m, f.1 = e.1 := by
  induction m with
  | nil => exact Or.inl (congrArg Prod.fst (List.mem_singleton.1 he))
  | cons f rest ih =>
    rw [add] at he
    split at he
    · rcases List.mem_cons.1 he with rfl | he
      · exact Or.inr ⟨_, List.mem_cons_self, rfl⟩
      · exact (ih he).imp_right fun ⟨g, hg, hge⟩ => ⟨g, List.mem_cons_of_mem _ hg, hge⟩
    · rcases List.mem_cons.1 he with rfl | he
      · exact Or.inr ⟨_, List.mem_cons_self, rfl⟩
      · exact Or.inr ⟨e, List.mem_cons_of_mem _ he, rfl⟩
    · rcases List.mem_cons.1 he with rfl | he
      · exact Or.inl rfl
      · exact Or.inr ⟨e, he, rfl⟩

theorem ids_ne_nil_add (h : ∀ e ∈ m, e.2 ≠ []) (key : κ) (id : RowId) :
    ∀ e ∈ add cmp key id m, e.2 ≠ [] := by
  induction m with
  | nil => simp [add]
  | cons f rest ih =>
    obtain ⟨hf, hRest⟩ := List.forall_mem_cons.1 h
    rw [add]
    split
    · exact List.forall_mem_cons.2 ⟨hf, ih hRest⟩
    · exact List.forall_mem_cons.2 ⟨by simp, hRest⟩
    · exact List.forall_mem_cons.2 ⟨by simp, h⟩

theorem length_add_le (m : Multimap κ) (key : κ) (id : RowId) :
    (add cmp key id m).length ≤ m.length + 1 := by
  induction m with
  | nil => exact Nat.le_refl _
  | cons e rest ih =>
    rw [add]
    split <;> simp only [List.length_cons] <;> omega

/-- Adding keeps the order. -/
theorem Ascending.add [Std.TransCmp cmp] (h : Ascending cmp m) (key : κ) (id : RowId) :
    Ascending cmp (add cmp key id m) := by
  obtain ⟨below, own, above, hs⟩ := h.exists_split key
  rw [hs.add_eq]
  rw [hs.eq] at h
  cases own with
  | some e =>
    simp only [Ascending, Option.toList_some, List.singleton_append, Option.elim_some,
      List.pairwise_append, List.pairwise_cons, List.forall_mem_cons] at h ⊢
    exact h
  | none =>
    simp only [Ascending, Option.toList_none, List.nil_append, Option.elim_none,
      List.pairwise_append, List.pairwise_cons, List.forall_mem_cons] at h ⊢
    refine ⟨h.1, ⟨fun f hf => Std.OrientedCmp.lt_of_gt (hs.above_gt f hf), h.2.1⟩, fun e he => ?_⟩
    exact ⟨hs.below_lt e he, h.2.2 e he⟩

theorem without_some {id? : Option RowId} {e f : Entry κ} (h : without id? e = some f) :
    f.1 = e.1 ∧ f.2 ≠ [] := by
  rw [without] at h
  split at h
  · cases h
  · next hne => 
    cases h
    exact ⟨rfl, hne⟩

theorem sublist_keys_remove (cmp : κ → κ → Ordering) (m : Multimap κ) (key : κ)
    (id? : Option RowId) :
    ((remove cmp key id? m).map Prod.fst).Sublist (m.map Prod.fst) := by
  induction m with
  | nil => exact List.Sublist.refl _
  | cons e rest ih =>
    rw [remove]
    split
    · cases hw : without id? e with
      | none => simp
      | some f => simp [(without_some hw).1]
    · exact ih.cons_cons _

theorem key_of_mem_remove {id? : Option RowId} {e : Entry κ} (he : e ∈ remove cmp key id? m) :
    ∃ f ∈ m, f.1 = e.1 := by
  have := (sublist_keys_remove cmp m key id?).mem (List.mem_map_of_mem (f := Prod.fst) he)
  exact List.mem_map.1 this

theorem ids_ne_nil_remove (h : ∀ e ∈ m, e.2 ≠ []) (key : κ) (id? : Option RowId) :
    ∀ e ∈ remove cmp key id? m, e.2 ≠ [] := by
  induction m with
  | nil => simp [remove]
  | cons f rest ih =>
    obtain ⟨hf, hRest⟩ := List.forall_mem_cons.1 h
    rw [remove]
    split
    · intro e he
      rcases List.mem_append.1 he with he | he
      · exact (without_some (Option.mem_toList.1 he)).2
      · exact hRest e he
    · exact List.forall_mem_cons.2 ⟨hf, ih hRest⟩

theorem total_remove_le (m : Multimap κ) (key : κ) (id? : Option RowId) :
    total (remove cmp key id? m) ≤ total m := by
  induction m with
  | nil => exact Nat.le_refl _
  | cons e rest ih =>
    rw [remove, total_cons]
    split
    · have hLess : total (without id? e).toList ≤ e.2.length := by
        cases id? with
        | none => simp [without]
        | some id =>
          have hFilter := List.length_filter_le (· != id) e.2
          rw [without, Option.elim_some]
          generalize e.2.filter (· != id) = rest at hFilter
          cases rest with
          | nil => simp
          | cons i rest => simpa using hFilter
      rw [total_append]
      omega
    · rw [total_cons]
      omega

theorem length_filter_add_count (id : RowId) (ids : List RowId) :
    (ids.filter (· != id)).length + ids.count id = ids.length := by
  rw [List.length_eq_countP_add_countP (· == id) (l := ids), List.count,
    ← List.countP_eq_length_filter, Nat.add_comm]
  congr 2
  funext i
  by_cases hi : i = id <;> simp [hi]

/-- As many identities go away as there are to be forgotten under the key. -/
theorem total_remove [Std.TransCmp cmp] (h : Ascending cmp m) (key : κ) (id? : Option RowId) :
    total (remove cmp key id? m) + id?.elim (get cmp key m).length (fun id => (get cmp key m).count id)
      = total m := by
  obtain ⟨below, own, above, hs⟩ := h.exists_split key
  rw [hs.remove_eq, hs.get_eq, congrArg total hs.eq]
  cases own with
  | none => cases id? <;> simp
  | some e =>
    have hRest : total (without id? e).toList = (id?.elim [] fun id => e.2.filter (· != id)).length := by
      rw [without]
      cases id?.elim [] fun id => e.2.filter (· != id) <;> simp
    have hCount : (id?.elim [] fun id => e.2.filter (· != id)).length
        + id?.elim e.2.length (fun id => e.2.count id) = e.2.length := by
      cases id? with
      | none => simp
      | some id => exact length_filter_add_count id e.2
    simp only [Option.bind_some, Option.elim_some, Option.toList_some, total_append, total_cons,
      total_nil, hRest]
    omega

theorem Ascending.remove (h : Ascending cmp m) (key : κ) (id? : Option RowId) :
    Ascending cmp (remove cmp key id? m) := by
  have hKeys : (m.map Prod.fst).Pairwise fun k l => cmp k l = .lt := List.pairwise_map.2 h
  exact List.pairwise_map.1 (hKeys.sublist (sublist_keys_remove cmp m key id?))

/-! ### What is found afterwards -/

theorem get_cons (e : Entry κ) (m : Multimap κ) (k : κ) :
    get cmp k (e :: m) = if cmp e.1 k = .eq then e.2 else get cmp k m := by
  rw [get, lookup?, List.find?_cons]
  by_cases h : cmp e.1 k = .eq
  · simp [h]
  · rw [if_neg h, (by simpa using h : (cmp e.1 k == .eq) = false)]
    rfl

theorem get_eq_nil (h : ∀ e ∈ m, cmp e.1 key ≠ .eq) : get cmp key m = [] := by
  have hNone : lookup? cmp key m = none := List.find?_eq_none.2 fun e he => by simp [h e he]
  rw [get, hNone]
  rfl

/-- As long as no entry is empty, a key is present where identities are found under it. -/
theorem contains_eq_get (h : ∀ e ∈ m, e.2 ≠ []) (key : κ) :
    contains cmp key m = !(get cmp key m).isEmpty := by
  rw [contains, get]
  cases hFind : lookup? cmp key m with
  | none => rfl
  | some e =>
    have hIds := h e (List.mem_of_find?_eq_some hFind)
    simpa using hIds

theorem exists_of_mem_get {id : RowId} (h : id ∈ get cmp key m) :
    ∃ e ∈ m, cmp e.1 key = .eq ∧ id ∈ e.2 := by
  rw [get] at h
  cases hFind : lookup? cmp key m with
  | none => simp [hFind] at h
  | some e =>
    rw [hFind] at h
    have hKey := List.find?_some hFind
    exact ⟨e, List.mem_of_find?_eq_some hFind, by simpa using hKey, h⟩

variable [Std.TransCmp cmp]

theorem get_of_mem (h : Ascending cmp m) {e : Entry κ} (he : e ∈ m) : get cmp e.1 m = e.2 := by
  induction m with
  | nil => cases he
  | cons f rest ih =>
    obtain ⟨hHead, hRest⟩ := List.pairwise_cons.1 h
    rw [get_cons]
    rcases List.mem_cons.1 he with rfl | he
    · rw [if_pos Std.ReflCmp.compare_self]
    · rw [if_neg (by simp [hHead e he]), ih hRest he]

/-- An ascending multimap has one entry for a key. -/
theorem Ascending.eq_of_key_eq (h : Ascending cmp m) {e f : Entry κ} (he : e ∈ m) (hf : f ∈ m)
    (hKey : cmp e.1 f.1 = .eq) : e = f := by
  have hBefore : List.Pairwise (fun e f => cmp e.1 f.1 = .eq → e = f) m :=
    List.Pairwise.imp (fun hLt hEq => nomatch hLt.symm.trans hEq) h
  have hAfter : List.Pairwise (fun e f => cmp f.1 e.1 = .eq → f = e) m :=
    List.Pairwise.imp (fun hLt hEq => nomatch (Std.OrientedCmp.gt_of_lt hLt).symm.trans hEq) h
  exact hBefore.forall_of_forall_of_flip (fun _ _ _ => rfl) hAfter he hf hKey

/-- An ascending multimap has nothing for a key that is not above its first one, but there. -/
theorem get_tail_eq_nil {e : Entry κ} (h : Ascending cmp (e :: m)) {k : κ} (hk : cmp e.1 k ≠ .lt) :
    get cmp k m = [] := by
  refine get_eq_nil fun f hf hEq => hk ?_
  exact Std.TransCmp.lt_of_lt_of_eq ((List.pairwise_cons.1 h).1 f hf) hEq

theorem get_add (h : Ascending cmp m) (key : κ) (id : RowId) (k : κ) :
    get cmp k (add cmp key id m) = get cmp k m ++ if cmp key k = .eq then [id] else [] := by
  induction m with
  | nil => rw [add, get_cons]; rfl
  | cons e rest ih =>
    rw [add]
    cases he : cmp e.1 key with
    | lt =>
      simp only [get_cons, ih (List.pairwise_cons.1 h).2]
      by_cases hk : cmp key k = .eq
      · have : cmp e.1 k = .lt := Std.TransCmp.lt_of_lt_of_eq he hk
        simp [this]
      · simp [hk]
    | eq =>
      simp only [get_cons, Std.TransCmp.congr_left he]
      split <;> simp
    | gt =>
      by_cases hk : cmp key k = .eq
      · have hAbove : cmp e.1 k = .gt := Std.TransCmp.gt_of_gt_of_eq he hk
        have hRest := get_tail_eq_nil h (k := k) (by simp [hAbove])
        simp [get_cons, hk, hAbove, hRest]
      · simp [get_cons, hk]

theorem get_remove (h : Ascending cmp m) (key : κ) (id? : Option RowId) (k : κ) :
    get cmp k (remove cmp key id? m)
      = if cmp key k = .eq then id?.elim [] fun id => (get cmp k m).filter (· != id)
        else get cmp k m := by
  induction m with
  | nil => cases id? <;> simp [remove, get, lookup?]
  | cons e rest ih =>
    rw [remove]
    by_cases he : cmp e.1 key = .eq
    · rw [if_pos he, get_cons, Std.TransCmp.congr_left he, without]
      by_cases hk : cmp key k = .eq
      · have hRest := get_tail_eq_nil h (k := k) (by simp [Std.TransCmp.congr_left he, hk])
        simp only [hk, if_true]
        cases id?.elim [] fun id => e.2.filter (· != id) with
        | nil => exact hRest
        | cons i ids => simp [get_cons, Std.TransCmp.congr_left he, hk]
      · simp only [hk, if_false]
        cases id?.elim [] fun id => e.2.filter (· != id) with
        | nil => rfl
        | cons i ids => simp [get_cons, Std.TransCmp.congr_left he, hk]
    · rw [if_neg he, get_cons, get_cons, ih (List.pairwise_cons.1 h).2]
      by_cases hk : cmp key k = .eq
      · have hOther : cmp e.1 k ≠ .eq := fun hEq =>
          he (Std.TransCmp.eq_trans hEq (Std.OrientedCmp.eq_symm hk))
        simp [hk, hOther]
      · simp [hk]

end Multimap

end IndexScan

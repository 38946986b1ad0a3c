import IndexScan.Proofs.RowOrder

/-!
# Rows in order

An index gives the rows of its ledger in order, and rows with equal keys in the order in which they
came.  There is one such list, the stable sort of the ledger (`RowOrder.Arranges.eq_mergeSort`),
since a list in order is known by what is equal to each of its members (`eq_of_filter_eq`).
-/

namespace IndexScan

/-! ### Stable sorting -/

section

variable {α : Type} {cmp : α → α → Ordering} [Std.TransCmp cmp]

theorem isLE_or_isLE (a b : α) : ((cmp a b).isLE || (cmp b a).isLE) = true := by
  have hSwap : cmp b a = (cmp a b).swap := Std.OrientedCmp.eq_swap
  rw [hSwap]
  cases cmp a b <;> rfl

theorem pairwise_mergeSort (l : List α) :
    (l.mergeSort fun a b => (cmp a b).isLE).Pairwise fun a b => (cmp a b).isLE :=
  List.pairwise_mergeSort (fun _ _ _ => Std.TransCmp.isLE_trans) isLE_or_isLE l

theorem filter_mergeSort (a : α) (l : List α) :
    (l.mergeSort fun b c => (cmp b c).isLE).filter (cmp a · == .eq)
      = l.filter (cmp a · == .eq) := by
  have hEquals : (l.filter (cmp a · == .eq)).Pairwise fun b c => (cmp b c).isLE := by
    refine List.pairwise_of_forall_mem_list fun b hb c hc => ?_
    have hab : cmp a b = .eq := by simpa using (List.mem_filter.1 hb).2
    have hac : cmp a c = .eq := by simpa using (List.mem_filter.1 hc).2
    rw [Std.TransCmp.eq_trans (Std.OrientedCmp.eq_symm hab) hac]
    rfl
  have hSub := (List.sublist_mergeSort (fun _ _ _ => Std.TransCmp.isLE_trans) isLE_or_isLE hEquals
    List.filter_sublist).filter (cmp a · == .eq)
  rw [List.filter_filter] at hSub
  simp only [Bool.and_self] at hSub
  refine (hSub.eq_of_length ?_).symm
  exact ((List.mergeSort_perm l _).filter _).length_eq.symm

theorem mem_of_filter_eq {l m : List α}
    (h : ∀ a, l.filter (cmp a · == .eq) = m.filter (cmp a · == .eq)) {a : α} (ha : a ∈ l) :
    a ∈ m := by
  have hSelf : a ∈ l.filter (cmp a · == .eq) :=
    List.mem_filter.2 ⟨ha, by simp [Std.ReflCmp.compare_self]⟩
  rw [h a] at hSelf
  exact (List.mem_filter.1 hSelf).1

/-- Lists in order are one list when everything has the same equals in both, in the same order. -/
theorem eq_of_filter_eq {l m : List α} (hl : l.Pairwise fun a b => (cmp a b).isLE)
    (hm : m.Pairwise fun a b => (cmp a b).isLE)
    (h : ∀ a, l.filter (cmp a · == .eq) = m.filter (cmp a · == .eq)) : l = m := by
  induction l generalizing m with
  | nil =>
    cases m with
    | nil => rfl
    | cons b m => exact absurd (mem_of_filter_eq (fun a => (h a).symm) List.mem_cons_self) (by simp)
  | cons a l ih =>
    cases m with
    | nil => exact absurd (mem_of_filter_eq h List.mem_cons_self) (by simp)
    | cons b m =>
      obtain ⟨hLeast, hRest⟩ := List.pairwise_cons.1 hl
      obtain ⟨hLeast', hRest'⟩ := List.pairwise_cons.1 hm
      -- each head is in the other list, so neither is above the other
      have hab : (cmp a b).isLE := by
        have hMem : b ∈ a :: l := mem_of_filter_eq (fun c => (h c).symm) List.mem_cons_self
        rcases List.mem_cons.1 hMem with rfl | hb
        · exact Std.ReflCmp.isLE_rfl
        · exact hLeast b hb
      have hba : (cmp b a).isLE := by
        rcases List.mem_cons.1 (mem_of_filter_eq h List.mem_cons_self) with rfl | ha
        · exact Std.ReflCmp.isLE_rfl
        · exact hLeast' a ha
      have hEq : cmp a b = .eq := Std.OrientedCmp.isLE_antisymm hab hba
      have hHeads := h a
      rw [List.filter_cons_of_pos (by simp [Std.ReflCmp.compare_self]),
        List.filter_cons_of_pos (by simp [hEq])] at hHeads
      obtain rfl := (List.cons.inj hHeads).1
      refine congrArg (a :: ·) (ih hRest hRest' fun c => ?_)
      have hTails := h c
      by_cases hc : cmp c a = .eq
      · simpa [List.filter_cons, hc] using hTails
      · simpa [List.filter_cons, hc] using hTails

end

namespace RowOrder

/-- A list of rows as an index gives them: a ledger sorted, with equal rows in its order. -/
structure Arranges (o : RowOrder) (rows log : List Row) : Prop where
  perm : rows.Perm log
  ascending : rows.Pairwise fun a b => (o.compareRows a b).isLE
  stable : ∀ r ∈ rows,
    rows.filter (o.compareRows r · == .eq) = log.filter (o.compareRows r · == .eq)

/-- Rows by the order of their keys. -/
def compareByKey (o : RowOrder) (a b : Row) : Ordering := o.compareKeys (o.keyOf a) (o.keyOf b)

instance (o : RowOrder) : Std.TransCmp o.compareByKey where
  eq_swap {a b} := by
    show o.compareKeys (o.keyOf a) (o.keyOf b) = (o.compareKeys (o.keyOf b) (o.keyOf a)).swap
    exact Std.OrientedCmp.eq_swap
  isLE_trans {a b c} hab hbc := by
    show (o.compareKeys (o.keyOf a) (o.keyOf c)).isLE
    exact Std.TransCmp.isLE_trans hab hbc

/-- A ledger in order, with equal rows in the order of the ledger, is its stable sort. -/
theorem Arranges.eq_mergeSort {o : RowOrder} {rows log : List Row} (h : o.Arranges rows log)
    (hCovers : ∀ r ∈ log, o.covers r = true) :
    rows = log.mergeSort fun a b => (o.compareRows a b).isLE := by
  have hKeys : ∀ a ∈ log, ∀ b ∈ log, o.compareRows a b = o.compareByKey a b :=
    fun a ha b hb => compareRows_eq_keys (hCovers a ha) (hCovers b hb)
  have hSort : log.mergeSort (fun a b => (o.compareRows a b).isLE)
      = log.mergeSort fun a b => (o.compareByKey a b).isLE := by
    have hMap := List.map_mergeSort (f := id) (l := log)
      (r := fun a b => (o.compareRows a b).isLE) (s := fun a b => (o.compareByKey a b).isLE)
      fun a ha b hb => congrArg Ordering.isLE (hKeys a ha b hb)
    rwa [List.map_id, List.map_id] at hMap
  have hMem : ∀ r ∈ rows, r ∈ log := fun r hr => h.perm.subset hr
  -- what no row is equal to has no equals on either side
  have hClass : ∀ r, rows.filter (o.compareByKey r · == .eq)
      = log.filter (o.compareByKey r · == .eq) := by
    intro r
    by_cases hr : ∃ q ∈ rows, o.compareByKey r q = .eq
    · obtain ⟨q, hq, hrq⟩ := hr
      have hSame : ∀ p ∈ log, (o.compareByKey r p == .eq) = (o.compareRows q p == .eq) := by
        intro p hp
        rw [hKeys q (hMem q hq) p hp, Std.TransCmp.congr_left hrq]
      rw [List.filter_congr fun p hp => hSame p (hMem p hp), h.stable q hq,
        List.filter_congr hSame]
    · have hNone : ∀ q ∈ rows, ¬ (o.compareByKey r q == .eq) = true := by
        intro q hq hrq
        exact hr ⟨q, hq, by simpa using hrq⟩
      rw [List.filter_eq_nil_iff.2 hNone,
        List.filter_eq_nil_iff.2 fun q hq => hNone q (h.perm.symm.subset hq)]
  rw [hSort]
  refine eq_of_filter_eq ?_ ?_ fun r => (hClass r).trans (filter_mergeSort r log).symm
  · refine h.ascending.imp_of_mem fun {a b} ha hb hab => ?_
    rwa [← hKeys a (hMem a ha) b (hMem b hb)]
  · exact pairwise_mergeSort log

end RowOrder

end IndexScan

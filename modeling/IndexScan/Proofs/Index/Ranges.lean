import IndexScan.Proofs.Index.Cursor

/-!
# Partial bounds cut rows in order

A bound with absent cells is equal to rows that are not equal to each other, so the comparison with
it is not an order any more.  What is left of one is enough for a scan: along rows in order, the
answer goes from below over equal to above and never back.

* `rank_compareRows_le` - the comparison with a bound is monotone.
* `compareRows_congr_present` - it looks at the cells before the first absent one only.
* `filter_inRange_isInfix` - the rows in range are a contiguous part of any rows in order.
-/

namespace IndexScan

namespace RowOrder

variable {ρ σ τ : Type} [Cells ρ] [Cells σ] [Cells τ] {o : RowOrder} {x y : ρ} {rows : List ρ}

/-! ### Monotonicity -/

/-- The place of below, equal and above, from the left to the right. -/
def rank : Ordering → Nat
  | .lt => 0
  | .eq => 1
  | .gt => 2

section

variable (hx : o.covers x) (hy : o.covers y) (h : (o.compareRows x y).isLE) (s : σ)

include hx hy h

/-- A bound that is above a row is above all rows before it. -/
theorem compareRows_lt_of_isLE (hLt : o.compareRows y s = .lt) : o.compareRows x s = .lt := by
  rw [compareRows_eq_keys hx hy] at h
  rw [compareRows_eq_keyWith hy] at hLt
  rw [compareRows_eq_keyWith hx]
  exact compareKeyWith_lt_of_isLE (full_keyOf o x) (full_keyOf o y) h s hLt

theorem compareRows_gt_of_isLE (hGt : o.compareRows x s = .gt) : o.compareRows y s = .gt := by
  rw [compareRows_eq_keys hx hy] at h
  rw [compareRows_eq_keyWith hx] at hGt
  rw [compareRows_eq_keyWith hy]
  exact compareKeyWith_gt_of_isLE (full_keyOf o x) (full_keyOf o y) h s hGt

/-- Along rows in order, the answer only goes up. -/
theorem rank_compareRows_le : rank (o.compareRows x s) ≤ rank (o.compareRows y s) := by
  cases hys : o.compareRows y s with
  | lt => rw [compareRows_lt_of_isLE hx hy h s hys]
  | eq =>
    cases hxs : o.compareRows x s with
    | lt => decide
    | eq => decide
    | gt =>
      rw [compareRows_gt_of_isLE hx hy h s hxs] at hys
      cases hys
  | gt => cases o.compareRows x s <;> decide

end

/-! ### What of a bound matters -/

/-- A comparison with a bound depends on the cells in the key columns before the first absent one,
whatever else the bound has. -/
theorem compareRows_congr_present {s : σ} {t : τ}
    (h : presentKey (Cells.cell? s) o.columns = presentKey (Cells.cell? t) o.columns) (x : ρ) :
    o.compareRows x s = o.compareRows x t := by
  rw [compareRows_swap x s, compareRows_swap x t, compareRows_eq_present, compareRows_eq_present, h]

/-! ### Rows in range -/

theorem inRange_eq_keys {r : ρ} (hr : o.covers r) (lower upper : Option Bound) :
    o.inRange lower upper r = (!lower.any (o.compareKeyWith (o.keyOf r) · == .lt) &&
      !upper.any (o.compareKeyWith (o.keyOf r) · == .gt)) := by
  simp only [← compareRows_eq_keyWith hr]
  cases lower <;> cases upper <;> rfl

/-- Rows in order, cut where they begin and cease to be in range. -/
theorem filter_inRange_isInfix (hRows : ∀ r ∈ rows, o.covers r = true)
    (hOrder : rows.Pairwise fun x y => (o.compareRows x y).isLE) (lower upper : Option Bound) :
    rows.filter (o.inRange lower upper) <:+: rows := by
  have hKeys : rows.Pairwise fun x y => (o.compareKeys (o.keyOf x) (o.keyOf y)).isLE :=
    hOrder.imp_of_mem fun hx hy h => compareRows_eq_keys (hRows _ hx) (hRows _ hy) ▸ h
  obtain ⟨below, rest, rfl, hBelow, hRest⟩ :=
    (o.downward_below lower).exists_span hKeys fun r _ => full_keyOf o r
  obtain ⟨inside, above, rfl, hInside, hAbove⟩ := (o.downward_not_above upper).exists_span
    (List.pairwise_append.1 hKeys).2.1 fun r _ => full_keyOf o r
  simp only [List.forall_mem_append] at hRows hRest
  have hBefore : below.filter (o.inRange lower upper) = [] := by
    refine List.filter_eq_nil_iff.2 fun r hr => ?_
    rw [inRange_eq_keys (hRows.1 r hr), hBelow r hr]
    exact Bool.false_ne_true
  have hAll : inside.filter (o.inRange lower upper) = inside := by
    refine List.filter_eq_self.2 fun r hr => ?_
    rw [inRange_eq_keys (hRows.2.1 r hr), hRest.1 r hr, hInside r hr]
    rfl
  have hAfter : above.filter (o.inRange lower upper) = [] := by
    refine List.filter_eq_nil_iff.2 fun r hr => ?_
    rw [inRange_eq_keys (hRows.2.2 r hr), hAbove r hr, Bool.and_false]
    exact Bool.false_ne_true
  rw [List.filter_append, List.filter_append, hBefore, hAll, hAfter, List.append_nil,
    List.nil_append]
  exact ⟨below, above, List.append_assoc ..⟩

/-- Bounds with any cells absent cut rows in order, and the keys of an ordered index, in contiguous
ranges. -/
theorem bounds_cut_order (o : RowOrder) :
    (∀ (x y : Row) (s : Bound), o.covers x → o.covers y → o.compareRows x y ≠ .gt →
      rank (o.compareRows x s) ≤ rank (o.compareRows y s)) ∧
    (∀ (x : Row) (s t : Bound),
      presentKey (Cells.cell? s) o.columns = presentKey (Cells.cell? t) o.columns →
      o.compareRows x s = o.compareRows x t) ∧
    (∀ (lower upper : Option Bound) (rows : List Row), (∀ r ∈ rows, o.covers r) →
      rows.Pairwise (fun x y => o.compareRows x y ≠ .gt) →
      rows.filter (o.inRange lower upper) <:+: rows) ∧
    ∀ ix : OrderedIndex, ix.order = o → ∀ b : Bound,
      Downward o.compareKeys o.Full (ix.belowBound b) ∧
      Downward o.compareKeys o.Full fun key => !ix.aboveBound b key := by
  refine ⟨fun x y s hx hy h => ?_, fun x s t h => compareRows_congr_present h x,
    fun lower upper rows hRows hOrder => ?_, ?_⟩
  · exact rank_compareRows_le hx hy (Ordering.isLE_iff_ne_gt.2 h) s
  · exact filter_inRange_isInfix hRows (hOrder.imp Ordering.isLE_iff_ne_gt.2) lower upper
  · rintro ix rfl b
    exact ⟨ix.downward_belowBound (some b), ix.downward_not_aboveBound (some b)⟩

/-- Rows in the order by text, from NULL and the later texts to the earlier ones. -/
def rowsByText : List Row := [Row.dummy [.int32 9, .null], Row.dummy [.int32 1, .text "b"],
  Row.dummy [.float64 ⟨0x4000000000000000⟩, .text "b"], Row.dummy [.int64 1, .text "a"]]

/-- Any number, and a text. -/
def withText : Bound := ⟨[none, some (.text "b")]⟩

/-- A bound that leaves the last key column open cuts out the rows with its text. -/
theorem withText_cuts_rowsByText :
    rank (byText.compareRows (Row.dummy [.int32 1, .text "b"]) withText)
      ≤ rank (byText.compareRows (Row.dummy [.int64 1, .text "a"]) withText) ∧
    byText.compareRows (Row.dummy [.int64 1, .text "a"]) withText
      = byText.compareRows (Row.dummy [.int64 1, .text "a"])
        (⟨[none, some (.text "b"), some .null]⟩ : Bound) ∧
    rowsByText.filter (byText.inRange (some withText) (some withText)) <:+: rowsByText ∧
    ∃ ix : OrderedIndex, ix.order = byText ∧
      Downward byText.compareKeys byText.Full (ix.belowBound withText) ∧
      Downward byText.compareKeys byText.Full fun key => !ix.aboveBound withText key := by
  obtain ⟨hRank, hPresent, hRange, hSeek⟩ := bounds_cut_order byText
  refine ⟨hRank _ _ _ rfl rfl (by decide), hPresent _ _ _ rfl, ?_, ?_⟩
  · exact hRange _ _ _ (by decide) (by decide +kernel)
  · exact ⟨⟨⟨"by_text", .ofColumns "t" [], ∅⟩, byText, .empty 4 false⟩, rfl, hSeek _ rfl withText⟩

end RowOrder

end IndexScan

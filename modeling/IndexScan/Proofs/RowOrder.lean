import IndexScan.Proofs.Value.Order
import IndexScan.RowOrder

/-!
# The order of rows is a total preorder

Cells of a key column compare first by whether they are NULL and then by value, so every key column
is a total preorder, and so is the order of keys, which goes column by column.  A bound with absent
cells is a full key of the order with only the columns before the first absent one
(`compareKeyFrom_eq`).  Leaving columns out of an order only makes keys equal
(`isLE_compareKeysFrom_take`), which is why a partial bound cuts the keys in order like a full one.

The order is there in three forms, for rows, for a key against a row or bound, and for keys.  They
agree on rows with all their key cells (`compareRows_total_preorder`).
-/

namespace IndexScan

/-! ### Cells -/

theorem Value.eq_null_of_isNull {v : Value} (h : v.isNull = true) : v = .null := by
  cases v <;> first | rfl | cases h

theorem Value.isNull_eq_of_compare_eq {a b : Value} (h : a.compare b = .eq) :
    a.isNull = b.isNull := by
  have hClass := classRank_eq_of_compare_eq h
  cases a <;> cases b <;> first | rfl | cases hClass

namespace NullPlacement

variable (nulls : NullPlacement) (d : Direction)

theorem nullVsValue_ne_eq : nulls.nullVsValue d ≠ .eq := by
  cases nulls <;> cases d <;> decide

/-- The place of NULL and of the values of a key column. -/
def cellRank (v : Value) : Nat :=
  if v.isNull then (if nulls.nullVsValue d = .lt then 0 else 2) else 1

theorem compareCells_eq_lex : nulls.compareCells d
    = compareLex (compareOn (nulls.cellRank d)) (fun a b => d.apply (a.compare b)) := by
  funext a b
  simp only [compareCells, compareLex, compareOn, cellRank]
  cases ha : a.isNull with
  | true =>
    cases hb : b.isNull with
    | true =>
      rw [Value.eq_null_of_isNull ha, Value.eq_null_of_isNull hb]
      cases nulls.nullVsValue d <;> cases d <;> rfl
    | false =>
      cases h : nulls.nullVsValue d with
      | eq => exact absurd h (nulls.nullVsValue_ne_eq d)
      | lt => rfl
      | gt => rfl
  | false =>
    cases hb : b.isNull with
    | true =>
      cases h : nulls.nullVsValue d with
      | eq => exact absurd h (nulls.nullVsValue_ne_eq d)
      | lt => rfl
      | gt => rfl
    | false => rfl

instance : Std.TransCmp fun a b : Value => d.apply (a.compare b) where
  eq_swap {a b} := by
    rw [Value.compare_swap a b]
    cases d <;> rfl
  isLE_trans {a b c} hab hbc := by
    have hTrans : ∀ x y z : Value, (x.compare y).isLE → (y.compare z).isLE → (x.compare z).isLE :=
      fun _ _ _ => Std.TransCmp.isLE_trans
    cases d with
    | ascending => exact hTrans a b c hab hbc
    | descending =>
      simp only [Direction.apply, ← Value.compare_swap] at hab hbc ⊢
      exact hTrans c b a hbc hab

instance : Std.TransCmp (nulls.compareCells d) := by
  rw [compareCells_eq_lex]
  infer_instance

theorem compareCells_swap (a b : Value) :
    nulls.compareCells d a b = (nulls.compareCells d b a).swap := Std.OrientedCmp.eq_swap

/-- Key columns tell cells apart like the order of values does. -/
theorem compareCells_eq_iff {a b : Value} :
    nulls.compareCells d a b = .eq ↔ a.compare b = .eq := by
  have hApply : ∀ o, d.apply o = .eq ↔ o = .eq := by
    intro o
    cases d <;> cases o <;> decide
  rw [compareCells]
  cases ha : a.isNull with
  | true =>
    cases hb : b.isNull with
    | true =>
      rw [Value.eq_null_of_isNull ha, Value.eq_null_of_isNull hb]
      exact iff_of_true rfl rfl
    | false =>
      refine iff_of_false (nulls.nullVsValue_ne_eq d) fun h => ?_
      simpa [ha, hb] using Value.isNull_eq_of_compare_eq h
  | false =>
    cases hb : b.isNull with
    | true =>
      refine iff_of_false (fun h => nulls.nullVsValue_ne_eq d (Ordering.swap_eq_eq.1 h)) fun h => ?_
      simpa [ha, hb] using Value.isNull_eq_of_compare_eq h
    | false => exact hApply _

end NullPlacement

/-! ### Keys -/

namespace RowOrder

section

variable (nulls : NullPlacement) (cols : List (Nat × Direction))

instance : Std.TransCmp (compareKeysFrom nulls cols) where
  eq_swap {a b} := by
    induction cols generalizing a b with
    | nil => rfl
    | cons c rest ih =>
      cases a with
      | nil => cases b <;> rfl
      | cons x a =>
        cases b with
        | nil => rfl
        | cons y b =>
          rw [compareKeysFrom, compareKeysFrom, Ordering.swap_then, ← ih, ← nulls.compareCells_swap]
  isLE_trans {a b c} hab hbc := by
    induction cols generalizing a b c with
    | nil => rfl
    | cons col rest ih =>
      cases a with
      | nil => cases c <;> rfl
      | cons x a =>
        cases b with
        | nil => cases hab
        | cons y b =>
          cases c with
          | nil => cases hbc
          | cons z c =>
            rw [compareKeysFrom, Ordering.isLE_then_iff_and] at hab hbc ⊢
            refine ⟨Std.TransCmp.isLE_trans hab.1 hbc.1, ?_⟩
            rcases hab.2 with hxy | hab'
            · exact Or.inl (Std.TransCmp.lt_of_lt_of_isLE hxy hbc.1)
            · rcases hbc.2 with hyz | hbc'
              · exact Or.inl (Std.TransCmp.lt_of_isLE_of_lt hab.1 hyz)
              · exact Or.inr (ih hab' hbc')

variable {nulls cols}

/-- Keys of full length are equal where all their cells are. -/
theorem compareKeysFrom_eq_iff {a b : Key} (ha : a.length = cols.length)
    (hb : b.length = cols.length) : compareKeysFrom nulls cols a b = .eq ↔ a == b := by
  induction cols generalizing a b with
  | nil =>
    obtain rfl := List.eq_nil_of_length_eq_zero ha
    obtain rfl := List.eq_nil_of_length_eq_zero hb
    exact iff_of_true rfl rfl
  | cons c rest ih =>
    obtain ⟨x, a, rfl⟩ := List.exists_cons_of_length_eq_add_one ha
    obtain ⟨y, b, rfl⟩ := List.exists_cons_of_length_eq_add_one hb
    have hRest := ih (Nat.succ.inj ha) (Nat.succ.inj hb)
    rw [compareKeysFrom, Ordering.then_eq_eq, nulls.compareCells_eq_iff, hRest, List.cons_beq_cons,
      Bool.and_eq_true, Value.beq_iff_compare_eq]

/-- With columns left out, no key gets below another one. -/
theorem isLE_compareKeysFrom_take {a b : Key} (h : (compareKeysFrom nulls cols a b).isLE)
    (n : Nat) :
    (compareKeysFrom nulls (cols.take n) a b).isLE := by
  induction cols generalizing a b n with
  | nil => rw [List.take_nil]; rfl
  | cons c rest ih =>
    cases n with
    | zero => rfl
    | succ n =>
      cases a with
      | nil => cases b <;> rfl
      | cons x a =>
        cases b with
        | nil => cases h
        | cons y b =>
          rw [compareKeysFrom, Ordering.isLE_then_iff_and] at h
          rw [List.take_succ_cons, compareKeysFrom, Ordering.isLE_then_iff_and]
          exact ⟨h.1, h.2.imp_right fun hRest => ih hRest n⟩

/-- The cells in the key columns before the first column where there is none. -/
def presentKey (b : Nat → Option Value) : List (Nat × Direction) → Key
  | [] => []
  | (i, _) :: rest =>
    match b i with
    | some y => y :: presentKey b rest
    | none => []

/-- To compare with a row or bound is to compare with its present cells, in the columns that they
fill. -/
theorem compareKeyFrom_eq (b : Nat → Option Value) {key : Key} (hKey : key.length = cols.length) :
    compareKeyFrom nulls b cols key
      = compareKeysFrom nulls (cols.take (presentKey b cols).length) key (presentKey b cols) := by
  induction cols generalizing key with
  | nil => rfl
  | cons c rest ih =>
    obtain ⟨x, key, rfl⟩ := List.exists_cons_of_length_eq_add_one hKey
    rw [compareKeyFrom, presentKey]
    cases b c.1 with
    | none => rfl
    | some y =>
      rw [ih (Nat.succ.inj hKey)]
      rfl

end

variable {ρ σ : Type} [Cells ρ] [Cells σ] {o : RowOrder}

/-- The key has a cell for every key column. -/
def Full (o : RowOrder) (key : Key) : Prop := key.length = o.columns.length

instance (o : RowOrder) : Std.TransCmp o.compareKeys :=
  inferInstanceAs (Std.TransCmp (compareKeysFrom o.nulls o.columns))

@[simp] theorem full_keyOf (o : RowOrder) (a : ρ) : o.Full (o.keyOf a) := List.length_map _

theorem compareKeys_eq_iff {a b : Key} (ha : o.Full a) (hb : o.Full b) :
    o.compareKeys a b = .eq ↔ a == b := compareKeysFrom_eq_iff ha hb

/-! ### Rows and bounds -/

/-- The present cells of a row or bound are all that it is compared by. -/
theorem compareCellsFrom_eq_present (nulls : NullPlacement) (a b : Nat → Option Value)
    (cols : List (Nat × Direction)) :
    compareCellsFrom nulls a b cols = compareKeyFrom nulls b cols (presentKey a cols) := by
  induction cols with
  | nil => rfl
  | cons c rest ih =>
    obtain ⟨i, d⟩ := c
    rw [compareCellsFrom, presentKey]
    cases a i with
    | none => rfl
    | some x => cases h : b i <;> simp only [compareKeyFrom, h, ih]

theorem presentKey_eq {b : Nat → Option Value} {cols : List (Nat × Direction)}
    (h : ∀ c ∈ cols, (b c.1).isSome) :
    presentKey b cols = cols.map fun (i, _) => (b i).getD .null := by
  induction cols with
  | nil => rfl
  | cons c rest ih =>
    obtain ⟨i, d⟩ := c
    obtain ⟨hHead, hRest⟩ := List.forall_mem_cons.1 h
    obtain ⟨y, hy⟩ := Option.isSome_iff_exists.1 hHead
    simp only [presentKey, hy, List.map_cons, ih hRest, Option.getD_some]

theorem presentKey_of_covers {a : ρ} (ha : o.covers a) :
    presentKey (Cells.cell? a) o.columns = o.keyOf a := presentKey_eq (List.all_eq_true.1 ha)

theorem compareRows_eq_present (a : ρ) (b : σ) :
    o.compareRows a b = o.compareKeyWith (presentKey (Cells.cell? a) o.columns) b :=
  compareCellsFrom_eq_present ..

/-- A row compares with another one, or with a bound, as its key does. -/
theorem compareRows_eq_keyWith {a : ρ} (ha : o.covers a) (b : σ) :
    o.compareRows a b = o.compareKeyWith (o.keyOf a) b := by
  rw [compareRows_eq_present, presentKey_of_covers ha]

/-- Rows with all their key cells compare as their keys do. -/
theorem compareRows_eq_keys {a : ρ} {b : σ} (ha : o.covers a) (hb : o.covers b) :
    o.compareRows a b = o.compareKeys (o.keyOf a) (o.keyOf b) := by
  rw [compareRows_eq_keyWith ha, compareKeyWith, compareKeyFrom_eq _ (full_keyOf o a),
    presentKey_of_covers hb, (full_keyOf o b : _ = _), List.take_length]
  rfl

section

variable {k l : Key} (hk : o.Full k) (hl : o.Full l) (h : (o.compareKeys k l).isLE) (b : σ)

include hk hl h

/-- A bound that is above a key is above all keys before it. -/
theorem compareKeyWith_lt_of_isLE (hLt : o.compareKeyWith l b = .lt) :
    o.compareKeyWith k b = .lt := by
  rw [compareKeyWith, compareKeyFrom_eq _ hl] at hLt
  rw [compareKeyWith, compareKeyFrom_eq _ hk]
  exact Std.TransCmp.lt_of_isLE_of_lt (isLE_compareKeysFrom_take h _) hLt

theorem compareKeyWith_gt_of_isLE (hGt : o.compareKeyWith k b = .gt) :
    o.compareKeyWith l b = .gt := by
  rw [compareKeyWith, compareKeyFrom_eq _ hk] at hGt
  rw [compareKeyWith, compareKeyFrom_eq _ hl]
  refine Std.OrientedCmp.gt_of_lt (Std.TransCmp.lt_of_lt_of_isLE (Std.OrientedCmp.lt_of_gt hGt) ?_)
  exact isLE_compareKeysFrom_take h _

end

/-- A bound does not tell equal keys apart, whatever the types of their numbers. -/
theorem compareKeyWith_congr {k l : Key} (hk : o.Full k) (hl : o.Full l)
    (h : o.compareKeys k l = .eq) (b : σ) : o.compareKeyWith k b = o.compareKeyWith l b := by
  have hLe : (o.compareKeys k l).isLE := by rw [h]; rfl
  have hGe : (o.compareKeys l k).isLE := by rw [Std.OrientedCmp.eq_symm h]; rfl
  cases hkb : o.compareKeyWith k b with
  | lt => exact (compareKeyWith_lt_of_isLE hl hk hGe b hkb).symm
  | gt => exact (compareKeyWith_gt_of_isLE hk hl hLe b hkb).symm
  | eq =>
    cases hlb : o.compareKeyWith l b with
    | eq => rfl
    | lt => rw [compareKeyWith_lt_of_isLE hk hl hLe b hlb] at hkb; cases hkb
    | gt => rw [compareKeyWith_gt_of_isLE hl hk hGe b hlb] at hkb; cases hkb

/-! ### One order in three forms -/

theorem compareCellsFrom_swap (nulls : NullPlacement) (a b : Nat → Option Value)
    (cols : List (Nat × Direction)) :
    compareCellsFrom nulls a b cols = (compareCellsFrom nulls b a cols).swap := by
  induction cols with
  | nil => rfl
  | cons c rest ih =>
    rw [compareCellsFrom, compareCellsFrom]
    cases a c.1 with
    | none => cases b c.1 <;> rfl
    | some x =>
      cases b c.1 with
      | none => rfl
      | some y => simp only [Ordering.swap_then, ← ih, ← nulls.compareCells_swap]

/-- Which of two is named first does not matter, be it a row or a bound. -/
theorem compareRows_swap (a : ρ) (b : σ) : o.compareRows a b = (o.compareRows b a).swap :=
  compareCellsFrom_swap _ _ _ _

theorem compareCellsFrom_eq_iff {nulls : NullPlacement} {a b : Nat → Option Value}
    {cols : List (Nat × Direction)} (ha : ∀ c ∈ cols, (a c.1).isSome)
    (hb : ∀ c ∈ cols, (b c.1).isSome) : compareCellsFrom nulls a b cols = .eq ↔
      ∀ c ∈ cols, ∃ x y, a c.1 = some x ∧ b c.1 = some y ∧ x == y := by
  induction cols with
  | nil => exact iff_of_true rfl (by simp)
  | cons c rest ih =>
    obtain ⟨hx, ha⟩ := List.forall_mem_cons.1 ha
    obtain ⟨hy, hb⟩ := List.forall_mem_cons.1 hb
    obtain ⟨x, hx⟩ := Option.isSome_iff_exists.1 hx
    obtain ⟨y, hy⟩ := Option.isSome_iff_exists.1 hy
    rw [List.forall_mem_cons, ← ih ha hb, compareCellsFrom, hx, hy, Ordering.then_eq_eq,
      nulls.compareCells_eq_iff, ← Value.beq_iff_compare_eq]
    refine and_congr_left fun _ => ⟨fun h => ⟨x, y, rfl, rfl, h⟩, ?_⟩
    rintro ⟨_, _, hx', hy', h⟩
    cases hx'
    cases hy'
    exact h

/-- Rows with all their key cells are equal where their values are, in every key column. -/
theorem compareRows_eq_iff_cells {a : ρ} {b : σ} (ha : o.covers a) (hb : o.covers b) :
    o.compareRows a b = .eq ↔ ∀ c ∈ o.columns,
      ∃ x y, Cells.cell? a c.1 = some x ∧ Cells.cell? b c.1 = some y ∧ x == y :=
  compareCellsFrom_eq_iff (List.all_eq_true.1 ha) (List.all_eq_true.1 hb)

/-- The order of rows with all their key cells is a total preorder, whichever form of it is used:
of rows, of a key against a row or bound, or of keys. -/
theorem compareRows_total_preorder {τ : Type} [Cells τ] {a : ρ} {b : σ} {c : τ}
    (ha : o.covers a) (hb : o.covers b) (hc : o.covers c) :
    o.compareRows a b = (o.compareRows b a).swap ∧
    ((o.compareRows a b).isLE → (o.compareRows b c).isLE → (o.compareRows a c).isLE) ∧
    (o.compareRows a b = .eq ↔ ∀ col ∈ o.columns,
      ∃ x y, Cells.cell? a col.1 = some x ∧ Cells.cell? b col.1 = some y ∧ x == y) ∧
    o.compareRows a b = o.compareKeyWith (o.keyOf a) b ∧
    o.compareRows a b = o.compareKeys (o.keyOf a) (o.keyOf b) ∧
    (∀ s : Bound, o.compareKeyWith (o.keyOf a) s = o.compareRows a s ∧
      o.compareRows s a = (o.compareRows a s).swap) ∧
    (∀ k l : Key, o.compareKeys k l = (o.compareKeys l k).swap) ∧
    ∀ k l m : Key, (o.compareKeys k l).isLE → (o.compareKeys l m).isLE →
      (o.compareKeys k m).isLE := by
  refine ⟨compareRows_swap a b, ?_, compareRows_eq_iff_cells ha hb, compareRows_eq_keyWith ha b,
    compareRows_eq_keys ha hb, fun s => ⟨(compareRows_eq_keyWith ha s).symm, compareRows_swap s a⟩,
    fun _ _ => Std.OrientedCmp.eq_swap, fun _ _ _ => Std.TransCmp.isLE_trans⟩
  intro hab hbc
  rw [compareRows_eq_keys ha hb] at hab
  rw [compareRows_eq_keys hb hc] at hbc
  rw [compareRows_eq_keys ha hc]
  exact Std.TransCmp.isLE_trans hab hbc

/-- A descending and an ascending key column, with NULL first in both. -/
def byText : RowOrder := ⟨[(1, .descending), (0, .ascending)], .first⟩

/-- Two rows are equal up to the type of a number, and below a third one.  A bound on the first key
column only is above all of them. -/
theorem compareRows_of_equal_numbers :
    byText.compareRows (Row.dummy [.int32 7, .null])
      (Row.dummy [.float64 ⟨0x401c000000000000⟩, .null]) = .eq ∧
    (byText.compareRows (Row.dummy [.int32 7, .null]) (Row.dummy [.int64 8, .text "a"])).isLE ∧
    byText.compareKeys [.int32 7, .null] [.null, .int32 7]
      = (byText.compareKeys [.null, .int32 7] [.int32 7, .null]).swap ∧
    byText.compareRows (⟨[none, some (.text "b")]⟩ : Bound) (Row.dummy [.int32 7, .null])
      = .gt := by
  obtain ⟨-, hTrans, hEq, -, -, hBound, hSwap, -⟩ := compareRows_total_preorder (o := byText)
    (a := Row.dummy [.int32 7, .null]) (b := Row.dummy [.float64 ⟨0x401c000000000000⟩, .null])
    (c := Row.dummy [.int64 8, .text "a"]) rfl rfl rfl
  have hSame := hEq.2 (by
    intro col hCol
    rcases List.mem_cons.1 hCol with rfl | hCol
    · exact ⟨.null, .null, rfl, rfl, rfl⟩
    · obtain rfl := List.mem_singleton.1 hCol
      exact ⟨.int32 7, .float64 ⟨0x401c000000000000⟩, rfl, rfl, by decide +kernel⟩)
  refine ⟨hSame, hTrans (by rw [hSame]; rfl) rfl, hSwap _ _, ?_⟩
  rw [(hBound _).2]
  rfl

end RowOrder

end IndexScan

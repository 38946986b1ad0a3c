import IndexScan.Proofs.Schema.Declaration
import IndexScan.RowOrder
import Mathlib.Data.List.Forall2
import Mathlib.Data.List.Nodup

/-!
# Every index of a declared table resolves

The columns that an index names are checked against the draft when the index is added, and no later
step takes a column away, renames it or repeats its name.  So in a finished table every key column
has a place, the same whenever it is looked up, and the index has an order.
-/

namespace IndexScan

theorem exists_mapM_eq_ok {ε α β : Type} {f : α → Except ε β} {R : α → β → Prop} {l : List α}
    (h : ∀ a ∈ l, ∃ b, f a = .ok b ∧ R a b) : ∃ bs, l.mapM f = .ok bs ∧ List.Forall₂ R l bs := by
  induction l with
  | nil => exact ⟨[], rfl, .nil⟩
  | cons a l ih =>
    obtain ⟨⟨b, hb, hR⟩, hRest⟩ := List.forall_mem_cons.1 h
    obtain ⟨bs, hbs, hRs⟩ := ih hRest
    refine ⟨b :: bs, ?_, .cons hR hRs⟩
    rw [List.mapM_cons, hb, hbs]
    rfl

/-- Among elements with different names, the one of a name is the first that is found. -/
theorem find?_eq_some_iff_of_nodup {α : Type} {f : α → String} {l : List α} (h : (l.map f).Nodup)
    {name : String} {a : α} : l.find? (f · == name) = some a ↔ f a = name ∧ a ∈ l := by
  constructor
  · intro hFind
    have hName := List.find?_some hFind
    exact ⟨beq_iff_eq.1 hName, List.mem_of_find?_eq_some hFind⟩
  · rintro ⟨rfl, ha⟩
    cases hFind : l.find? (f · == f a) with
    | none => exact absurd (beq_self_eq_true (f a)) (List.find?_eq_none.1 hFind a ha)
    | some b =>
      have hName := List.find?_some hFind
      rw [List.inj_on_of_nodup_map h (List.mem_of_find?_eq_some hFind) ha (beq_iff_eq.1 hName)]

/-! ### What the steps preserve -/

/-- No two columns and no two indexes have one name, and the indexes have their key columns. -/
structure Resolve (columns : List (String × DataType)) (indexes : List IndexDef) : Prop where
  nodup_columns : (columns.map Prod.fst).Nodup
  nodup_indexes : (indexes.map IndexDef.name).Nodup
  keyed : ∀ i ∈ indexes, Draft.Keyed columns i

theorem nodup_map_append_filterMap {α β σ : Type} {f : α → β} {g : σ → Option α} {l : List α}
    {s : σ} (hl : (l.map f).Nodup) (hNew : ∀ a, g s = some a → f a ∉ l.map f) :
    ((l ++ [s].filterMap g).map f).Nodup := by
  cases hs : g s with
  | none => rwa [List.filterMap_cons_none hs, List.filterMap_nil, List.append_nil]
  | some a =>
    rw [List.filterMap_cons_some hs, List.filterMap_nil, List.map_append]
    exact List.concat_eq_append ▸ hl.concat (hNew a hs)

namespace Draft

def Resolves (d : Draft) : Prop := Resolve (signature d.columns) d.indexes

variable {d d' : Draft} {s : Declaration} {steps : List Declaration}

theorem resolves_empty (name : String) : Resolves { name } :=
  ⟨.nil, .nil, fun _ hi => absurd hi List.not_mem_nil⟩

theorem Keyed.append {columns : List (String × DataType)} {i : IndexDef} (h : Keyed columns i)
    (rest : List (String × DataType)) : Keyed (columns ++ rest) i := by
  intro c hc
  obtain ⟨type, hType, hIndexable⟩ := h c hc
  exact ⟨type, List.mem_append_left _ hType, hIndexable⟩

/-- Every step of a declaration leaves the indexes resolved. -/
theorem Resolves.apply (hd : d.Resolves) (h : d.apply s = .ok d') : d'.Resolves := by
  obtain ⟨hAccepts, hExtends⟩ := extends_of_apply h
  rw [Resolves, hExtends.columns, hExtends.indexes]
  refine ⟨nodup_map_append_filterMap hd.nodup_columns hAccepts.column,
    nodup_map_append_filterMap hd.nodup_indexes hAccepts.index, fun i hi => .append ?_ _⟩
  rcases List.mem_append.1 hi with hi | hi
  · exact hd.keyed i hi
  · obtain ⟨s', hs', hIndex⟩ := List.mem_filterMap.1 hi
    obtain rfl := List.mem_singleton.1 hs'
    exact hAccepts.keyed i hIndex

theorem Resolves.foldlM (hd : d.Resolves) (h : steps.foldlM Draft.apply d = .ok d') :
    d'.Resolves := by
  induction steps generalizing d with
  | nil =>
    cases h
    exact hd
  | cons s rest ih =>
    obtain ⟨d₁, hApply, hRest⟩ := exists_of_bind_eq_ok h
    exact ih (hd.apply hApply) hRest

end Draft

/-! ### Finished tables -/

namespace Table

def Resolves (t : Table) : Prop := Resolve (Draft.signature t.columns) t.indexes

variable {t : Table} {name : String} {steps : List Declaration}

theorem signature_ofDraft (d : Draft) :
    Draft.signature (ofDraft d).columns = Draft.signature d.columns := by
  refine List.ext_getElem? fun i => ?_
  rw [ofDraft, ofColumns, Draft.signature, List.getElem?_map, List.getElem?_mapIdx, Draft.signature,
    List.getElem?_map, Option.map_map]
  rfl

theorem position_ofDraft {d : Draft} {i : Nat} {column : Column}
    (h : (ofDraft d).columns[i]? = some column) : column.position = i := by
  rw [ofDraft, ofColumns, List.getElem?_mapIdx] at h
  obtain ⟨c, -, rfl⟩ := Option.map_eq_some_iff.1 h
  rfl

theorem resolves_of_declare (h : declare name steps = .ok t) : t.Resolves := by
  obtain ⟨d, hRun, rfl⟩ := exists_draft_of_declare h
  rw [Resolves, signature_ofDraft]
  exact (Draft.resolves_empty name).foldlM hRun

theorem Resolves.nodup_name (ht : t.Resolves) : (t.columns.map Column.name).Nodup :=
  Draft.map_fst_signature t.columns ▸ ht.nodup_columns

/-- The place and direction `p` are those of the key column `c`. -/
structure Places (t : Table) (c : KeyColumn) (p : Nat × Direction) : Prop where
  direction : p.2 = c.direction
  width : p.1 < t.width
  column : ∃ column, t.columns[p.1]? = some column ∧ column.name = c.name ∧ column.type ≠ .bytes

/-- A column is found at its place by its name, which no other column has. -/
theorem exists_position (h : (t.columns.map Column.name).Nodup) {column : Column}
    (hColumn : column ∈ t.columns) :
    ∃ i, t.position? column.name = some i ∧ t.columns[i]? = some column := by
  obtain ⟨i, hi⟩ : ∃ i, t.position? column.name = some i :=
    ⟨_, List.findIdx?_eq_some_of_exists ⟨column, hColumn, beq_self_eq_true _⟩⟩
  obtain ⟨hLt, hName, -⟩ := List.findIdx?_eq_some_iff_getElem.1 hi
  have hSame := List.inj_on_of_nodup_map h (List.getElem_mem hLt) hColumn (beq_iff_eq.1 hName)
  exact ⟨i, hi, by rw [List.getElem?_eq_getElem hLt, hSame]⟩

theorem Resolves.exists_places (ht : t.Resolves) {d : IndexDef} (hd : d ∈ t.indexes) {c : KeyColumn}
    (hc : c ∈ d.columns) : ∃ p, t.keyColumn c = .ok p ∧ t.Places c p := by
  obtain ⟨type, hMem, hIndexable⟩ := ht.keyed d hd c hc
  obtain ⟨column, hColumn, hSame⟩ := List.mem_map.1 hMem
  obtain ⟨hName, rfl⟩ := Prod.mk.inj hSame
  obtain ⟨i, hPosition, hAt⟩ := exists_position ht.nodup_name hColumn
  refine ⟨(i, c.direction), by rw [keyColumn, ← hName, hPosition], rfl, ?_, column, hAt, hName, ?_⟩
  · exact (List.getElem?_eq_some_iff.1 hAt).1
  · intro hBytes
    rw [hBytes] at hIndexable
    cases hIndexable

/-- An index of a table whose indexes resolve has an order, in which its key columns stand. -/
theorem Resolves.exists_placed_order (ht : t.Resolves) {d : IndexDef} (hd : d ∈ t.indexes)
    (nulls : NullPlacement) : ∃ columns, t.keyColumns d = .ok columns ∧
      RowOrder.ofIndex t d nulls = .ok { columns, nulls } ∧
      List.Forall₂ t.Places d.columns columns := by
  obtain ⟨columns, hColumns, hPlaces⟩ := exists_mapM_eq_ok (f := t.keyColumn) (R := t.Places)
    fun c hc => ht.exists_places hd hc
  refine ⟨columns, hColumns, ?_, hPlaces⟩
  rw [RowOrder.ofIndex, keyColumns, hColumns]
  rfl

theorem lt_width_of_places {cs : List KeyColumn} {columns : List (Nat × Direction)}
    (h : List.Forall₂ t.Places cs columns) : ∀ p ∈ columns, p.1 < t.width := by
  induction h with
  | nil => exact fun p hp => absurd hp List.not_mem_nil
  | cons hPlace _ ih => exact List.forall_mem_cons.2 ⟨hPlace.width, ih⟩

theorem Resolves.exists_order (ht : t.Resolves) {d : IndexDef} (hd : d ∈ t.indexes)
    (nulls : NullPlacement) : ∃ o, RowOrder.ofIndex t d nulls = .ok o ∧
      o.columns.length = d.columns.length ∧ ∀ c ∈ o.columns, c.1 < t.width := by
  obtain ⟨columns, -, hOrder, hPlaces⟩ := ht.exists_placed_order hd nulls
  exact ⟨_, hOrder, hPlaces.length_eq.symm, lt_width_of_places hPlaces⟩

theorem exists_order_of_declare (h : declare name steps = .ok t) {index : String} {d : IndexDef}
    (hIndex : t.index? index = some d) (nulls : NullPlacement) :
    ∃ o, RowOrder.ofIndex t d nulls = .ok o := by
  obtain ⟨o, hOrder, -⟩ :=
    (resolves_of_declare h).exists_order (List.mem_of_find?_eq_some hIndex) nulls
  exact ⟨o, hOrder⟩

theorem width_eq_of_validate {r : Row} (h : t.validate r = .ok ()) : r.width = t.width := by
  rw [validate] at h
  split at h
  · cases h
  · next hWidth => exact Decidable.not_not.1 hWidth

end Table

/-- A row that is wide enough has a value in every key column. -/
theorem RowOrder.covers_of_width {o : RowOrder} {r : Row} (h : ∀ c ∈ o.columns, c.1 < r.width) :
    o.covers r = true := by
  refine List.all_eq_true.2 fun c hc => ?_
  show (r.values[c.1]?).isSome = true
  rw [List.getElem?_eq_getElem (h c hc)]
  rfl

namespace Table

variable {t : Table} {name : String} {steps : List Declaration}

/-- What holds of the table `t` declared by the steps, whatever their order. -/
structure Coherent (t : Table) (name : String) (steps : List Declaration) : Prop where
  nodup_columns : (t.columns.map Column.name).Nodup
  position : ∀ i (column : Column), t.columns[i]? = some column → column.position = i
  nodup_indexes : (t.indexes.map IndexDef.name).Nodup
  /-- An index is found by its name, and is the one that a step has added. -/
  lookup : ∀ index d, t.index? index = some d ↔
    d.name = index ∧ ∃ s ∈ steps, s.index? name = some d
  /-- An index has an order, over its own columns, and every row of the table has them all. -/
  order : ∀ d ∈ t.indexes, ∀ nulls, ∃ columns, t.keyColumns d = .ok columns ∧
    RowOrder.ofIndex t d nulls = .ok { columns, nulls } ∧
    List.Forall₂ t.Places d.columns columns ∧
    ∀ r, t.validate r = .ok () → RowOrder.covers { columns, nulls } r = true

theorem coherent_of_declare (h : declare name steps = .ok t) : t.Coherent name steps := by
  have ht := resolves_of_declare h
  refine ⟨ht.nodup_name, ?_, ht.nodup_indexes, fun index d => ?_, fun d hd nulls => ?_⟩
  · obtain ⟨draft, -, rfl⟩ := exists_draft_of_declare h
    exact fun _ _ => position_ofDraft
  · rw [index?, find?_eq_some_iff_of_nodup ht.nodup_indexes, indexes_of_declare h, List.mem_filterMap]
  · obtain ⟨columns, hColumns, hOrder, hPlaces⟩ := ht.exists_placed_order hd nulls
    refine ⟨columns, hColumns, hOrder, hPlaces, fun r hr => RowOrder.covers_of_width fun p hp => ?_⟩
    exact (width_eq_of_validate hr).symm ▸ lt_width_of_places hPlaces p hp

/-- A table whose columns, indexes, kind and NULLs are declared in no particular order. -/
theorem coherent_of_mixed_steps : ∃ t,
    declare "t" [.column "a" .int64, .primaryKey ["a"], .kind .view, .column "raw" .bytes,
      .orderedIndex "down" [⟨"a", .descending⟩, ⟨"a", .ascending⟩] false, .nullable ["a", "none"],
      .column "b" .text, .queryIndex "scan" [⟨"b", .ascending⟩, ⟨"a", .descending⟩],
      .hashIndex "h" ["b"] true] = .ok t ∧
    t.Coherent "t" [.column "a" .int64, .primaryKey ["a"], .kind .view, .column "raw" .bytes,
      .orderedIndex "down" [⟨"a", .descending⟩, ⟨"a", .ascending⟩] false, .nullable ["a", "none"],
      .column "b" .text, .queryIndex "scan" [⟨"b", .ascending⟩, ⟨"a", .descending⟩],
      .hashIndex "h" ["b"] true] :=
  ⟨_, rfl, coherent_of_declare rfl⟩

end Table

end IndexScan

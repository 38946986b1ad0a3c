import IndexScan.Schema.Draft

/-!
# What a declaration puts into its table

A step adds at most one column and one index and may set the kind, and what it adds was checked
against the draft before it.  `Draft.Extends` and `Draft.Accepts` say so once for all steps.  Hence
the columns, the indexes and the kind of a declared table can be read off its steps, and what was
checked of an index was true where its step stands, which is less than that it is true in the end:
the kind may change after a query index has been added.
-/

namespace IndexScan

@[simp] theorem ok_bind {ε α β : Type} (a : α) (f : α → Except ε β) : Except.ok a >>= f = f a := rfl

theorem exists_of_bind_eq_ok {ε α β : Type} {x : Except ε α} {f : α → Except ε β} {b : β}
    (h : x >>= f = .ok b) : ∃ a, x = .ok a ∧ f a = .ok b := by
  cases x with
  | error e => cases h
  | ok a => exact ⟨a, rfl, h⟩

theorem forM_eq_ok {ε α : Type} {f : α → Except ε Unit} {l : List α}
    (h : forM l f = .ok ()) : ∀ a ∈ l, f a = .ok () := by
  induction l with
  | nil => simp
  | cons a l ih =>
    rw [List.forM_cons] at h
    obtain ⟨⟨⟩, ha, hl⟩ := exists_of_bind_eq_ok h
    exact List.forall_mem_cons.2 ⟨ha, ih hl⟩

/-! ### What a step says -/

namespace Declaration

/-- The column that the step adds. -/
def column? : Declaration → Option (String × DataType)
  | column name type => some (name, type)
  | _ => none

/-- The index that the step adds to the table of the given name. -/
def index? (table : String) : Declaration → Option IndexDef
  | primaryKey columns => some
    { name := "pk" ++ table.capitalize, table, columns := Draft.ascending columns, unique := true }
  | index name columns unique => some { name, table, columns := Draft.ascending columns, unique }
  | orderedIndex name columns unique => some { name, table, columns, unique }
  | hashIndex name columns unique => some
    { name, table, columns := Draft.ascending columns, unique, type := .hash }
  | queryIndex name columns => some { name, table, columns, type := .query }
  | _ => none

def kind? : Declaration → Option TableKind
  | kind k => some k
  | _ => none

/-- The last kind that the steps set. -/
def lastKind? (steps : List Declaration) : Option TableKind := (steps.filterMap kind?).getLast?

/-- The kind of a table after the steps. -/
def kindAfter (steps : List Declaration) : TableKind := (lastKind? steps).getD .base

theorem getD_lastKind?_append (l r : List Declaration) (k : TableKind) :
    (lastKind? (l ++ r)).getD k = (lastKind? r).getD ((lastKind? l).getD k) := by
  rw [lastKind?, List.filterMap_append, List.getLast?_append, Option.getD_or]
  rfl

theorem eq_queryIndex_of_index? {s : Declaration} {table : String} {d : IndexDef}
    (h : s.index? table = some d) (hType : d.type = .query) : s = .queryIndex d.name d.columns := by
  cases s with
  | queryIndex name columns =>
    cases h
    rfl
  | primaryKey | index | orderedIndex | hashIndex =>
    cases h
    cases hType
  | schema | kind | column | nullable => cases h

end Declaration

/-! ### What a step does -/

namespace Draft

/-- The names and types of columns, which no later step changes. -/
def signature (columns : List Column) : List (String × DataType) :=
  columns.map fun c => (c.name, c.type)

theorem map_fst_signature (columns : List Column) :
    (signature columns).map Prod.fst = columns.map Column.name := List.map_map

/-- The draft `d'` is `d` with what the steps say. -/
structure Extends (d : Draft) (steps : List Declaration) (d' : Draft) : Prop where
  name : d'.name = d.name
  kind : d'.kind = (Declaration.lastKind? steps).getD d.kind
  columns : signature d'.columns = signature d.columns ++ steps.filterMap Declaration.column?
  indexes : d'.indexes = d.indexes ++ steps.filterMap (Declaration.index? d.name)

/-- Every key column of the index is among the columns and has a type that keys may have. -/
def Keyed (columns : List (String × DataType)) (i : IndexDef) : Prop :=
  ∀ c ∈ i.columns, ∃ type : DataType, (c.name, type) ∈ columns ∧ type.indexable = true

/-- What is checked before a step is taken. -/
structure Accepts (d : Draft) (s : Declaration) : Prop where
  column : ∀ c, s.column? = some c → c.1 ∉ (signature d.columns).map Prod.fst
  index : ∀ i, s.index? d.name = some i → i.name ∉ d.indexes.map IndexDef.name
  keyed : ∀ i, s.index? d.name = some i → Keyed (signature d.columns) i
  kind : ∀ i, s.index? d.name = some i → i.type = .query → d.kind.queryBacked = true

variable {d d' d'' : Draft} {s : Declaration} {l r steps : List Declaration}

theorem Extends.refl (d : Draft) : d.Extends [] d :=
  ⟨rfl, rfl, (List.append_nil _).symm, (List.append_nil _).symm⟩

theorem Extends.trans (h : d.Extends l d') (h' : d'.Extends r d'') : d.Extends (l ++ r) d'' where
  name := h'.name.trans h.name
  kind := by rw [h'.kind, h.kind, Declaration.getD_lastKind?_append]
  columns := by rw [h'.columns, h.columns, List.filterMap_append, List.append_assoc]
  indexes := by rw [h'.indexes, h.indexes, h.name, List.filterMap_append, List.append_assoc]

theorem signature_allowNull (columns : List Column) (name : String) :
    signature (allowNull columns name) = signature columns := by
  induction columns with
  | nil => rfl
  | cons c rest ih =>
    rw [allowNull]
    split
    · rfl
    · exact congrArg ((c.name, c.type) :: ·) ih

theorem signature_foldl_allowNull (names : List String) (columns : List Column) :
    signature (names.foldl allowNull columns) = signature columns := by
  induction names generalizing columns with
  | nil => rfl
  | cons name names ih => rw [List.foldl_cons, ih, signature_allowNull]

theorem not_mem_map_of_any_eq_false {α : Type} {f : α → String} {name : String} {xs : List α}
    (h : ¬ xs.any (fun x => f x == name)) : name ∉ xs.map f := by
  intro hMem
  obtain ⟨x, hx, rfl⟩ := List.mem_map.1 hMem
  exact h (List.any_eq_true.2 ⟨x, hx, beq_self_eq_true _⟩)

theorem addColumn_eq_ok {name : String} {type : DataType} (h : d.addColumn name type = .ok d') :
    name ∉ d.columns.map Column.name ∧ d' = { d with columns := d.columns ++ [{ name, type }] } := by
  obtain ⟨-, -, h⟩ := exists_of_bind_eq_ok h
  split at h
  · cases h
  · next hNew =>
    cases h
    exact ⟨not_mem_map_of_any_eq_false hNew, rfl⟩

theorem exists_of_checkKeyColumn {c : KeyColumn} (h : d.checkKeyColumn c = .ok ()) :
    ∃ type : DataType, (c.name, type) ∈ signature d.columns ∧ type.indexable = true := by
  rw [checkKeyColumn] at h
  split at h
  · cases h
  · next column hFind =>
    have hName := List.find?_some hFind
    split at h
    · next hIndexable =>
      refine ⟨column.type, List.mem_map.2 ⟨column, List.mem_of_find?_eq_some hFind, ?_⟩, hIndexable⟩
      rw [beq_iff_eq.1 hName]
    · cases h

theorem addIndex_eq_ok {i : IndexDef} (h : d.addIndex i.name i.columns i.unique i.type = .ok d')
    (hTable : i.table = d.name) : i.name ∉ d.indexes.map IndexDef.name ∧
      Keyed (signature d.columns) i ∧ d' = { d with indexes := d.indexes ++ [i] } := by
  obtain ⟨-, -, h⟩ := exists_of_bind_eq_ok h
  split at h
  · cases h
  · next hNew =>
    obtain ⟨⟨⟩, hChecked, h⟩ := exists_of_bind_eq_ok h
    cases h
    refine ⟨not_mem_map_of_any_eq_false hNew, fun c hc => ?_, by rw [← hTable]⟩
    exact exists_of_checkKeyColumn (forM_eq_ok hChecked c hc)

/-- A step whose only effect is an index, which the kind of the table allows. -/
theorem extends_of_addIndex {i : IndexDef} (hIndex : s.index? d.name = some i)
    (hTable : i.table = d.name) (hColumn : s.column? = none) (hKind : s.kind? = none)
    (hBacked : i.type = .query → d.kind.queryBacked = true)
    (h : d.addIndex i.name i.columns i.unique i.type = .ok d') :
    d.Accepts s ∧ d.Extends [s] d' := by
  obtain ⟨hNew, hKeyed, rfl⟩ := addIndex_eq_ok h hTable
  constructor
  · refine ⟨fun c hc => ?_, fun j hj => ?_, fun j hj => ?_, fun j hj => ?_⟩
    · rw [hColumn] at hc
      cases hc
    all_goals
      obtain rfl : i = j := Option.some.inj (hIndex.symm.trans hj)
      assumption
  · refine ⟨rfl, ?_, ?_, ?_⟩
    · rw [Declaration.lastKind?, List.filterMap_cons_none hKind]
      rfl
    · rw [List.filterMap_cons_none hColumn]
      exact (List.append_nil _).symm
    · rw [List.filterMap_cons_some hIndex]
      rfl

/-- What every step does: the checks that it has passed, and what it adds. -/
theorem extends_of_apply (h : d.apply s = .ok d') : d.Accepts s ∧ d.Extends [s] d' := by
  cases s with
  | schema name =>
    obtain ⟨-, -, h⟩ := exists_of_bind_eq_ok h
    cases h
    exact ⟨⟨nofun, nofun, nofun, nofun⟩, rfl, rfl, (List.append_nil _).symm, (List.append_nil _).symm⟩
  | kind kind =>
    cases h
    exact ⟨⟨nofun, nofun, nofun, nofun⟩, rfl, rfl, (List.append_nil _).symm, (List.append_nil _).symm⟩
  | column name type =>
    obtain ⟨hNew, rfl⟩ := addColumn_eq_ok h
    refine ⟨⟨?_, nofun, nofun, nofun⟩, rfl, rfl, List.map_append, (List.append_nil _).symm⟩
    rintro _ ⟨⟩
    rwa [map_fst_signature]
  | nullable names =>
    cases h
    refine ⟨⟨nofun, nofun, nofun, nofun⟩, rfl, rfl, ?_, (List.append_nil _).symm⟩
    exact (signature_foldl_allowNull names d.columns).trans (List.append_nil _).symm
  | primaryKey columns => exact extends_of_addIndex rfl rfl rfl rfl nofun h
  | index name columns unique => exact extends_of_addIndex rfl rfl rfl rfl nofun h
  | orderedIndex name columns unique => exact extends_of_addIndex rfl rfl rfl rfl nofun h
  | hashIndex name columns unique => exact extends_of_addIndex rfl rfl rfl rfl nofun h
  | queryIndex name columns =>
    rw [Draft.apply] at h
    split at h
    · next hBacked => exact extends_of_addIndex rfl rfl rfl rfl (fun _ => hBacked) h
    · cases h

theorem extends_of_foldlM (h : steps.foldlM apply d = .ok d') : d.Extends steps d' := by
  induction steps generalizing d with
  | nil =>
    cases h
    exact .refl _
  | cons s rest ih =>
    obtain ⟨d₁, hApply, hRest⟩ := exists_of_bind_eq_ok h
    exact (extends_of_apply hApply).2.trans (ih hRest)

end Draft

/-! ### Finished tables -/

namespace Table

open Declaration

variable {t : Table} {name : String} {steps : List Declaration}

/-- The table that a draft becomes. -/
def ofDraft (d : Draft) : Table :=
  { ofColumns d.name d.columns with schema := d.schema, kind := d.kind, indexes := d.indexes }

theorem exists_draft_of_declareFrom {step : Nat} {d : Draft}
    (h : declareFrom step d steps = .ok t) :
    ∃ d', steps.foldlM Draft.apply d = .ok d' ∧ t = ofDraft d' := by
  induction steps generalizing step d with
  | nil =>
    rw [declareFrom, Draft.finish] at h
    split at h
    · cases h
    · cases h
      exact ⟨d, rfl, rfl⟩
  | cons s rest ih =>
    rw [declareFrom] at h
    split at h
    · next d₁ hApply =>
      obtain ⟨d', hRun, rfl⟩ := ih h
      exact ⟨d', by rw [List.foldlM_cons, hApply]; exact hRun, rfl⟩
    · cases h

/-- A declared table is the draft to which the steps lead from the empty one. -/
theorem exists_draft_of_declare (h : declare name steps = .ok t) :
    ∃ d, steps.foldlM Draft.apply { name } = .ok d ∧ t = ofDraft d := by
  rw [declare] at h
  split at h
  · next hStart =>
    obtain ⟨-, -, hStart⟩ := exists_of_bind_eq_ok hStart
    cases hStart
    exact exists_draft_of_declareFrom h
  · cases h

theorem indexes_of_declare (h : declare name steps = .ok t) :
    t.indexes = steps.filterMap (Declaration.index? name) := by
  obtain ⟨d, hRun, rfl⟩ := exists_draft_of_declare h
  exact (Draft.extends_of_foldlM hRun).indexes

theorem kind_of_declare (h : declare name steps = .ok t) : t.kind = kindAfter steps := by
  obtain ⟨d, hRun, rfl⟩ := exists_draft_of_declare h
  exact (Draft.extends_of_foldlM hRun).kind

theorem queryBacked_kind_iff {k : TableKind} (hk : k.queryBacked = true) (r : List Declaration) :
    ((lastKind? r).getD k).queryBacked = true ↔ lastKind? r ≠ some .base := by
  cases lastKind? r with
  | none => simpa using hk
  | some last => cases last <;> simp [TableKind.queryBacked]

/-- A table with a query index was query-backed when the index was added, and still is unless the
last kind that is set after the index is the base kind. -/
theorem queryBacked_of_queryIndex (h : declare name steps = .ok t) {d : IndexDef}
    (hd : d ∈ t.indexes) (hType : d.type = .query) :
    ∃ l r, steps = l ++ .queryIndex d.name d.columns :: r ∧ (kindAfter l).queryBacked = true ∧
      (t.kind.queryBacked = true ↔ lastKind? r ≠ some .base) := by
  rw [indexes_of_declare h] at hd
  obtain ⟨s, hs, hIndex⟩ := List.mem_filterMap.1 hd
  obtain rfl := eq_queryIndex_of_index? hIndex hType
  obtain ⟨l, r, rfl⟩ := List.append_of_mem hs
  obtain ⟨d', hRun, -⟩ := exists_draft_of_declare h
  rw [List.foldlM_append] at hRun
  obtain ⟨before, hBefore, hRun⟩ := exists_of_bind_eq_ok hRun
  obtain ⟨after, hApply, -⟩ := exists_of_bind_eq_ok hRun
  have hExtends := Draft.extends_of_foldlM hBefore
  have hName : before.name = name := hExtends.name
  have hKind : before.kind = kindAfter l := hExtends.kind
  have hBacked : (kindAfter l).queryBacked = true := by
    rw [← hName] at hIndex
    exact hKind ▸ (Draft.extends_of_apply hApply).1.kind d hIndex hType
  refine ⟨l, r, rfl, hBacked, ?_⟩
  rw [kind_of_declare h, kindAfter, getD_lastKind?_append]
  exact queryBacked_kind_iff hBacked r

theorem queryBacked_of_view : ∃ t l r,
    declare "t" [.kind .view, .column "a" .int64, .queryIndex "scan" [⟨"a", .ascending⟩],
      .kind .derived] = .ok t ∧
    [.kind .view, .column "a" .int64, .queryIndex "scan" [⟨"a", .ascending⟩], .kind .derived]
      = l ++ .queryIndex "scan" [⟨"a", .ascending⟩] :: r ∧
    (kindAfter l).queryBacked = true ∧ (t.kind.queryBacked = true ↔ lastKind? r ≠ some .base) := by
  obtain ⟨l, r, hAll⟩ := @queryBacked_of_queryIndex _ "t"
    [.kind .view, .column "a" .int64, .queryIndex "scan" [⟨"a", .ascending⟩], .kind .derived] rfl
    _ (List.mem_singleton.2 rfl) rfl
  exact ⟨_, l, r, rfl, hAll⟩

/-- The kind is not looked at again when the table is finished. -/
theorem queryIndex_on_base_table : ∃ t,
    declare "t" [.kind .view, .column "a" .int64, .queryIndex "scan" [⟨"a", .ascending⟩],
      .kind .base] = .ok t ∧
    (∃ d ∈ t.indexes, d.type = .query) ∧ t.kind.queryBacked = false :=
  ⟨_, rfl, ⟨_, List.mem_singleton.2 rfl, rfl⟩, rfl⟩

end Table

end IndexScan

import IndexScan.Schema.Table

/-! # Declaring tables

A table is declared step by step. Each step is checked against the draft it extends, and the
first that is refused refuses the declaration.
-/

namespace IndexScan

/-- Refuses a name that is not a letter or underscore followed by letters, digits and
underscores, all of them ASCII. -/
def checkName (name : String) : Except Error Unit :=
  match name.toList with
  | [] => .error (.invalidSchema "Name cannot be empty")
  | c :: rest =>
    if !c.isAlpha && c != '_' then
      .error (.invalidSchema s!"Name must start with letter or underscore: {name}")
    else if rest.all fun c => c.isAlphanum || c == '_' then .ok ()
    else .error (.invalidSchema s!"Name contains invalid characters: {name}")

/-- A step of a table's declaration. -/
inductive Declaration
  | schema (name : String)
  | kind (kind : TableKind)
  | column (name : String) (type : DataType)
  /-- Lets the named columns hold NULL; names of no column are passed over. -/
  | nullable (columns : List String)
  /-- A unique index over ascending columns, named after the table. -/
  | primaryKey (columns : List String)
  | index (name : String) (columns : List String) (unique : Bool)
  | orderedIndex (name : String) (columns : List KeyColumn) (unique : Bool)
  | hashIndex (name : String) (columns : List String) (unique : Bool)
  /-- The index through which the rows of a query-backed table are read. -/
  | queryIndex (name : String) (columns : List KeyColumn)
  deriving Repr

/-- A table under declaration. Its columns have no places yet. -/
structure Draft where
  name : String
  schema : String := defaultSchema
  kind : TableKind := .base
  columns : List Column := []
  indexes : List IndexDef := []

namespace Draft

def start (name : String) : Except Error Draft := do
  checkName name
  return { name }

def addColumn (d : Draft) (name : String) (type : DataType) : Except Error Draft := do
  checkName name
  if d.columns.any (·.name == name) then
    throw (.invalidSchema s!"Column already exists: {name}")
  return { d with columns := d.columns ++ [{ name, type }] }

/-- Only the first column of a name is affected; there is no second one in a valid draft. -/
def allowNull (columns : List Column) (name : String) : List Column :=
  match columns with
  | [] => []
  | c :: rest => if c.name == name then { c with nullable := true } :: rest
    else c :: allowNull rest name

def checkKeyColumn (d : Draft) (c : KeyColumn) : Except Error Unit :=
  match d.columns.find? (·.name == c.name) with
  | none => .error (.invalidSchema s!"Column not found: {c.name}")
  | some column =>
    if column.indexable then .ok ()
    else .error (.invalidSchema s!"Column is not indexable: {c.name}")

def addIndex (d : Draft) (name : String) (columns : List KeyColumn) (unique : Bool)
    (type : IndexType) : Except Error Draft := do
  checkName name
  if d.indexes.any (·.name == name) then
    throw (.invalidSchema s!"Index already exists: {name}")
  columns.forM d.checkKeyColumn
  return { d with indexes := d.indexes ++ [{ name, table := d.name, columns, unique, type }] }

def ascending (columns : List String) : List KeyColumn := columns.map fun name => { name }

def apply (d : Draft) : Declaration → Except Error Draft
  | .schema name => do
    checkName name
    return { d with schema := name }
  | .kind kind => .ok { d with kind }
  | .column name type => d.addColumn name type
  | .nullable names => .ok { d with columns := names.foldl allowNull d.columns }
  | .primaryKey columns => d.addIndex ("pk" ++ d.name.capitalize) (ascending columns) true .btree
  | .index name columns unique => d.addIndex name (ascending columns) unique .btree
  | .orderedIndex name columns unique => d.addIndex name columns unique .btree
  | .hashIndex name columns unique => d.addIndex name (ascending columns) unique .hash
  | .queryIndex name columns =>
    if d.kind.queryBacked then d.addIndex name columns false .query
    else .error (.invalidSchema s!"Table {d.name} is not query-backed")

def finish (d : Draft) : Except Error Table :=
  if d.columns.isEmpty then .error (.invalidSchema s!"Table {d.name} has no columns")
  else .ok { Table.ofColumns d.name d.columns with
    schema := d.schema, kind := d.kind, indexes := d.indexes }

end Draft

/-- A refused declaration: the number of the step, counting the table's name as step 0 and the
completion as the last one, and the cause. -/
structure Refusal where
  step : Nat
  error : Error

namespace Table

/-- Takes the steps from number `step` on. -/
def declareFrom (step : Nat) (d : Draft) : List Declaration → Except Refusal Table
  | [] => d.finish.mapError (⟨step, ·⟩)
  | s :: rest =>
    match d.apply s with
    | .ok d => declareFrom (step + 1) d rest
    | .error e => .error ⟨step, e⟩

/-- The table that the declaration describes. -/
def declare (name : String) (steps : List Declaration) : Except Refusal Table :=
  match Draft.start name with
  | .ok d => declareFrom 1 d steps
  | .error e => .error ⟨0, e⟩

end Table

end IndexScan

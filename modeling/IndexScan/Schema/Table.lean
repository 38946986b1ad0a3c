import IndexScan.Row
import IndexScan.Schema.Column
import IndexScan.Schema.IndexDef

/-! # Tables

A table gives its rows their shape and lists the indexes over them.
-/

namespace IndexScan

/-- Where the rows of a table come from. -/
inductive TableKind
  | base
  | view
  /-- A query in the place of a table. -/
  | derived
  /-- The working table of a recursive query. -/
  | recursive
  deriving DecidableEq, Repr, Inhabited

def TableKind.queryBacked : TableKind → Bool
  | base => false
  | _ => true

/-- The schema of a table that names none. -/
def defaultSchema : String := "PUBLIC"

structure Table where
  name : String
  schema : String := defaultSchema
  kind : TableKind := .base
  columns : List Column
  indexes : List IndexDef := []
  deriving Repr, Inhabited

namespace Table

/-- The base table with the given columns, each put in its place. -/
def ofColumns (name : String) (columns : List Column) : Table :=
  { name, columns := columns.mapIdx fun i c => { c with position := i } }

def qualifiedName (t : Table) : String := t.schema ++ "." ++ t.name

def width (t : Table) : Nat := t.columns.length

/-- The row of NULLs in the table's shape. -/
def template (t : Table) : Row := Row.template t.width

def column? (t : Table) (name : String) : Option Column :=
  t.columns.find? (·.name == name)

def position? (t : Table) (name : String) : Option Nat :=
  t.columns.findIdx? (·.name == name)

def index? (t : Table) (name : String) : Option IndexDef :=
  t.indexes.find? (·.name == name)

def requireIndex (t : Table) (name : String) : Except Error IndexDef :=
  match t.index? name with
  | some d => .ok d
  | none => .error (.indexNotFound t.name name)

def keyColumn (t : Table) (c : KeyColumn) : Except Error (Nat × Direction) :=
  match t.position? c.name with
  | some i => .ok (i, c.direction)
  | none => .error (.columnNotFound t.name c.name)

/-- The key columns of an index by their place in the row. -/
def keyColumns (t : Table) (d : IndexDef) : Except Error (List (Nat × Direction)) :=
  d.columns.mapM t.keyColumn

/-- Whether a row has the table's shape and every cell is admitted by its column. -/
def validate (t : Table) (r : Row) : Except Error Unit :=
  if r.width ≠ t.width then
    .error (.invalidSchema s!"row has {r.width} columns, table {t.name} has {t.width}")
  else
    (t.columns.zip r.values).forM fun (c, v) => c.validate v

end Table

end IndexScan

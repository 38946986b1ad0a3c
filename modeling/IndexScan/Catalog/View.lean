import IndexScan.Index.Computed

/-! # Views

A view is a stored query with a name. It keeps the text of the query and reads its rows through
a computed index over the query that the text was last compiled to.
-/

namespace IndexScan

/-- Compiles the text of a query for a table. -/
structure Compiler where
  compile : String → Table → Except Error Query

/-- The compiler that knows what certain texts compile to. -/
def Compiler.ofDefinitions (definitions : List (String × Except Error Query)) : Compiler where
  compile text t :=
    match definitions.lookup text with
    | some outcome => outcome
    | none => .error (.compilation t.name s!"unknown query \"{text}\"")

/-- Compiling shows in the trace, whether it succeeds or not. -/
def Compiler.run (c : Compiler) (text : String) (t : Table) : Traced (Except Error Query) := do
  Traced.emit .compiled
  return c.compile text t

structure View where
  text : String
  index : ComputedIndex

namespace View

def name (v : View) : String := v.index.table.name

def schema (v : View) : String := v.index.table.schema

/-- Whether the view can be scanned. -/
def isValid (v : View) : Bool := v.index.isValid

/-- Compiles a query and makes a view of it. With `force` a query that does not compile makes a
view too, which cannot be scanned. -/
def create (t : Table) (index text : String) (c : Compiler) (settings : Settings) (force : Bool) :
    Traced (Except Error View) := do
  let ofSource (source : TupleSource) : Except Error View :=
    (ComputedIndex.create t index source settings).map fun index => { text, index }
  match ← c.run text t with
  | .ok q => return ofSource (.query q)
  | .error e => return if force then ofSource (.broken e.message) else .error e

/-- Compiles the text again. When it fails, the query stays, or with `force` is given up. -/
def recompile (v : View) (c : Compiler) (force : Bool) : Traced (Except Error Unit × View) := do
  match ← c.run v.text v.index.table with
  | .ok q =>
    let (result, index) := v.index.setQuery q
    return (result, { v with index })
  | .error e =>
    if force then
      let (result, index) := v.index.invalidate e.message
      return (result.bind fun () => .error e, { v with index })
    else return (.error e, v)

/-- Puts another text in the place of the view's, unless it does not compile. -/
def replaceText (v : View) (text : String) (c : Compiler) : Traced (Except Error Unit × View) := do
  match ← recompile { v with text } c false with
  | (.ok (), v) => return (.ok (), v)
  | (.error e, changed) => return (.error e, { changed with text := v.text })

end View

end IndexScan

import IndexScan.Catalog.User
import IndexScan.Catalog.View
import Std.Data.TreeMap

/-! # The catalog

The catalog holds the views by name. They are altered by command, which takes the ownership of
the view's schema.
-/

namespace IndexScan

structure Catalog where
  views : Std.TreeMap String View := ∅

namespace Catalog

def view? (c : Catalog) (name : String) : Option View := c.views[name]?

/-- Has a name stand for a view. -/
def set (c : Catalog) (name : String) (v : View) : Catalog := { views := c.views.insert name v }

/-- Puts a view in the place of the one with its name. -/
def put (c : Catalog) (v : View) : Catalog := c.set v.name v

/-- Adds a view under its name, which has to be free. -/
def add (c : Catalog) (v : View) : Except Error Unit × Catalog :=
  if c.views.contains v.name then (.error (.invalidSchema s!"View already exists: {v.name}"), c)
  else (.ok (), c.put v)

/-- Takes out a view. -/
def remove (c : Catalog) (name : String) : Catalog := { views := c.views.erase name }

/-- The names of the views, sorted. -/
def names (c : Catalog) : List String := c.views.keys

end Catalog

/-- The command `ALTER VIEW [IF EXISTS] name RECOMPILE`. -/
structure AlterView where
  view : String
  ifExists : Bool := false
  deriving Repr

namespace AlterView

/-- Runs the command for a user, who has to own the view's schema. A view that no longer compiles
cannot be scanned until it is recompiled. The answer is the number of rows changed, none. -/
def run (a : AlterView) (c : Catalog) (u : User) (compiler : Compiler) :
    Traced (Except Error Nat × Catalog) :=
  match c.view? a.view with
  | none => pure (if a.ifExists then .ok 0 else .error (.viewNotFound a.view), c)
  | some v =>
    match u.checkOwner v.schema with
    | .error e => pure (.error e, c)
    | .ok () => do
      let (result, v) ← v.recompile compiler true
      return (result.map fun () => 0, c.set a.view v)

end AlterView

end IndexScan

import IndexScan.Error

/-! # Users

A user owns schemas; an administrator owns all of them.
-/

namespace IndexScan

structure User where
  name : String
  isAdmin : Bool := false
  schemas : List String := []
  deriving Repr

namespace User

def owns (u : User) (schema : String) : Bool := u.isAdmin || u.schemas.contains schema

/-- Refuses users who do not own the schema. -/
def checkOwner (u : User) (schema : String) : Except Error Unit :=
  if u.owns schema then .ok ()
  else .error (.accessDenied s!"user {u.name} does not own schema {schema}")

end User

end IndexScan

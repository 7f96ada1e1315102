import TableQuery.Text.Bytes

/-!
# Permissions

A permission is a resource and an action, written with a colon between them. A star stands for every
resource or every action, and a text without a colon for every action on the resource it names.
-/

namespace TableQuery

/-- A resource and what may be done with it. -/
structure Permission where
  resource : Bytes
  action : Bytes
deriving Repr, DecidableEq

namespace Permission

/-- The star, which stands for everything in its place. -/
def everything : Bytes := [Ascii.star]

/-- The permission of a text. -/
def ofBytes (text : Bytes) : Permission :=
  match Bytes.cut Ascii.colon text with
  | some (resource, action) => { resource, action }
  | none => { resource := text, action := everything }

/-- The text of a permission. -/
def toBytes (p : Permission) : Bytes := p.resource ++ Ascii.colon :: p.action

/-- Whether a permission that was granted covers one that is required. -/
def grants (granted required : Permission) : Bool :=
  (granted.resource == everything || granted.resource == required.resource)
    && (granted.action == everything || granted.action == required.action)

/-- Whether one of the granted permissions covers the required one. -/
def isGranted (granted : List Bytes) (required : Bytes) : Bool :=
  granted.any fun text => (ofBytes text).grants (ofBytes required)

end Permission

end TableQuery

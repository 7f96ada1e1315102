import TableQuery.Access.Permission
import TableQuery.Request.Context
import TableQuery.Table.Basic

/-!
# Access rules

A table is open to a caller who has one of the rule's roles, if it lists any, and every one of its
permissions. A request without a user has neither roles nor permissions.
-/

namespace TableQuery

namespace Context

/-- The caller's roles. -/
def roles (c : Context) : List Bytes := (c.user.map User.roles).getD []

/-- The caller's permissions. -/
def permissions (c : Context) : List Bytes := (c.user.map User.permissions).getD []

end Context

namespace Table

/-- The fault of a caller without any of the roles. -/
def roleMissing (t : Table) : Fault :=
  .accessDenied
    (Bytes.ofString "Access to '" ++ t.name ++ "' requires one of the configured roles")
    (.record [("table", .str t.name), ("requiredRoles", .ofTexts t.access.roles)])

/-- The fault of a caller without a permission. -/
def permissionMissing (t : Table) (permission : Bytes) : Fault :=
  .accessDenied
    (Bytes.ofString "Access to '" ++ t.name ++ "' requires permission '" ++ permission ++ "'")
    (.record [("table", .str t.name), ("requiredPermission", .str permission)])

/-- Refuses a caller whom the table's rule does not admit. -/
def checkAccess (t : Table) (c : Context) : Checked Unit :=
  if !t.access.roles.isEmpty && !t.access.roles.any fun role => c.roles.contains role then
    .error t.roleMissing
  else
    match t.access.permissions.find? fun p => !Permission.isGranted c.permissions p with
    | some missing => .error (t.permissionMissing missing)
    | none => .ok ()

end Table

end TableQuery

import TableQuery.Calendar.Instant
import TableQuery.Fault
import TableQuery.Json.Print

/-!
# Request context

What the server knows of a request: the tenant, the user with roles and permissions, parameters, and the
time. Conditions of a description refer to it by texts with a dollar sign in front.
-/

namespace TableQuery

/-- The user who sent a request. -/
structure User where
  id : Bytes := []
  roles : List Bytes := []
  permissions : List Bytes := []
deriving Repr, DecidableEq

/-- The context of one request. -/
structure Context where
  tenantId : Option Bytes := none
  user : Option User := none
  parameters : Json := .obj []
  now : Option Instant := none
deriving Repr

namespace Context

/-! ## References -/

/-- Goes down from a value by member names. -/
def descend (j : Json) : List Bytes → Option Json
  | [] => some j
  | key :: rest => (j.get? key).bind fun child => descend child rest

/-- The value that a reference without its dollar sign stands for. The tenant comes first, then the user
if there is one, then the parameters, by a path with dots. -/
def lookupPath (c : Context) (path : Bytes) : Option Json :=
  let inParameters := descend c.parameters (Bytes.splitOn Ascii.dot path)
  if path = Bytes.ofString "tenantId" ∨ path = Bytes.ofString "tenant_id" then
    c.tenantId.map .str
  else match c.user with
    | none => inParameters
    | some user =>
      if path = Bytes.ofString "user.id" then some (.str user.id)
      else if path = Bytes.ofString "user.roles" then some (.ofTexts user.roles)
      else if path = Bytes.ofString "user.permissions" then some (.ofTexts user.permissions)
      else inParameters

/-- The value of a reference; none for a text that is no reference. -/
def lookup (c : Context) (reference : Bytes) : Option Json :=
  match reference with
  | Ascii.dollar :: path => c.lookupPath path
  | _ => none

/-! ## Reading and writing -/

/-- A text, or any other value as JSON. -/
def textOrCompact : Json → Bytes
  | .str s => s
  | j => j.compact

/-- Reads a user. -/
def readUser (j : Json) : Json.Reading User := do
  let id ← j.getOr "id" (.str [])
  let roles ← j.textListOr "roles"
  let permissions ← j.textListOr "permissions"
  return { id := textOrCompact id, roles, permissions }

/-- Reads a context part by part. -/
def read (j : Json) : Json.Reading Context := do
  let tenantId := match j.get? "tenant_id" with
    | none | some .null => none
    | some tenant => some (textOrCompact tenant)
  let user ← match j.get? "user" with
    | some (.obj members) => some <$> readUser (.obj members)
    | _ => pure none
  let parameters ← j.getOr "variables" (.obj [])
  let now ← match j.get? "now_ms" with
    | none => pure none
    | some ms => (some ∘ Instant.ofMilliseconds) <$> ms.asInt64
  return { tenantId, user, parameters, now }

/-- The fault of a context with a value of the wrong kind. -/
def malformed (reason : Bytes) : Fault :=
  .validation "context" (Bytes.ofString "Malformed request context: " ++ reason) []

/-- Reads a context. -/
def ofJson (j : Json) : Checked Context := (read j).mapError fun mismatch => malformed mismatch.text

/-- Writes a user. -/
def userToJson (u : User) : Json :=
  .record [("id", .str u.id), ("roles", .ofTexts u.roles), ("permissions", .ofTexts u.permissions)]

/-- Writes a context; what is absent or empty is left out. -/
def toJson (c : Context) : Json :=
  .recordOf
    [Json.member? "tenant_id" .str c.tenantId,
      Json.member? "user" userToJson c.user,
      Json.memberIf (c.parameters.size != 0) "variables" c.parameters,
      Json.member? "now_ms" (fun t => .ofInt64 t.toMilliseconds) c.now]

end Context

end TableQuery

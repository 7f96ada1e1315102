import TableQuery.Sql.Order
import TableQuery.Table.Filter

/-!
# Sections of a description

The smaller parts of a table description: search, sort keys, paging, the walk down a tree of rows, soft
deletion and tenancy, caching and access.
-/

namespace TableQuery

/-! ## Search -/

/-- Which fields a search term is looked for in, and how. -/
structure Search where
  fields : List Bytes := []
  enabled : Bool := true
  fullText : Bool := false
  /-- The language of a full-text search. -/
  language : Bytes := "english"
deriving Repr, Inhabited

namespace Search

/-- Reads a search section: an array gives the fields alone. -/
def ofJson (j : Json) : Json.Reading Search := do
  if j.isArr then return { fields := ← j.asTexts }
  else
    let fields ← j.textListOr "fields"
    let enabled ← j.boolOr "enabled" true
    let fullText ← j.boolOr "full_text" false
    let language ← j.textOr "language" "english"
    return { fields, enabled, fullText, language }

/-- Writes a search section. -/
def toJson (s : Search) : Json :=
  .record
    [("fields", .ofTexts s.fields), ("enabled", .bool s.enabled), ("full_text", .bool s.fullText),
      ("language", .str s.language)]

end Search

/-! ## Sort keys -/

/-- A field to sort by, and the direction. -/
structure SortKey where
  field : Bytes
  direction : SortDirection := .asc
deriving Repr, DecidableEq, Inhabited

namespace SortKey

/-- The sort key of a field's name, a minus sign in front for the descending order. -/
def ofSigned (text : Bytes) : SortKey :=
  let (field, direction) := SortDirection.ofSigned text
  { field, direction }

/-- Reads a sort key of a description. -/
def ofJson (j : Json) : Outcome SortKey := do
  match j with
  | .str text => return ofSigned text
  | _ =>
    let field ← j.textAt "field"
    let direction ← SortDirection.vocabulary.read (← j.textOr "direction" "asc")
    return { field, direction }

/-- Writes a sort key. -/
def toJson (k : SortKey) : Json :=
  .record [("field", .str k.field), ("direction", .str k.direction.name)]

end SortKey

/-! ## Paging -/

/-- How a result is cut into pages. -/
structure Pagination where
  defaultPageSize : Int64 := 10
  maxPageSize : Int64 := 100
  enabled : Bool := true
  /-- The field that makes a cursor's order total. -/
  cursorKey : Bytes := "id"
deriving Repr, DecidableEq, Inhabited

namespace Pagination

/-- Reads a paging section. -/
def ofJson (j : Json) : Json.Reading Pagination := do
  let defaultPageSize ← j.int64Or "default_page_size" 10
  let maxPageSize ← j.int64Or "max_page_size" 100
  let enabled ← j.boolOr "enabled" true
  let cursorKey ← j.textOr "cursor_key" "id"
  return { defaultPageSize, maxPageSize, enabled, cursorKey }

/-- Writes a paging section. -/
def toJson (p : Pagination) : Json :=
  .record
    [("default_page_size", .ofInt64 p.defaultPageSize), ("max_page_size", .ofInt64 p.maxPageSize),
      ("enabled", .bool p.enabled), ("cursor_key", .str p.cursorKey)]

end Pagination

/-! ## Trees of rows -/

/-- The walk down a tree of rows: a child names its parent's key, down to a greatest depth. -/
structure TreeWalk where
  parentKey : Bytes
  childKey : Bytes
  maxDepth : Int32
  /-- Which rows are roots; without it, those without a parent. -/
  startWith : Option Condition := none
  depthName : Bytes := "depth"
  /-- The name of the path column, empty for none. -/
  pathName : Bytes := []
deriving Repr, Inhabited

namespace TreeWalk

/-- Reads the walk of a table. -/
def ofJson (table : Bytes) (j : Json) : Outcome TreeWalk := do
  let parentKey ← j.textAt "parent_key"
  let childKey ← j.textAt "child_key"
  match j.get? "max_depth" with
  | none =>
    (Fault.config (Bytes.ofString "Recursive config for '" ++ table ++ "' requires max_depth")
      (.record [("table", .str table)])).raise
  | some depth =>
    let maxDepth ← depth.asInt32
    let startWith ← match j.get? "start_with" with
      | none => pure none
      | some condition => some <$> Condition.ofJson .description condition
    let depthName ← j.textOr "depth_alias" "depth"
    let pathName ← j.textOr "path_alias" []
    return { parentKey, childKey, maxDepth, startWith, depthName, pathName }

/-- Writes a walk. -/
def toJson (w : TreeWalk) : Json :=
  .recordOf
    [[("parent_key", .str w.parentKey), ("child_key", .str w.childKey),
        ("max_depth", .int w.maxDepth.toInt), ("depth_alias", .str w.depthName)],
      Json.member? "start_with" Condition.toJson w.startWith,
      Json.memberIf (!w.pathName.isEmpty) "path_alias" (.str w.pathName)]

end TreeWalk

/-! ## Scope -/

/-- A restriction of all statements that works on one field and can be switched on. -/
structure ScopeField where
  enabled : Bool := false
  field : Bytes
deriving Repr, DecidableEq, Inhabited

namespace ScopeField

/-- Reads a scope field over its usual value: a truth value switches it, an object switches it on
unless it says otherwise. -/
def ofJson (usual : ScopeField) (j : Json) : Json.Reading ScopeField := do
  match j with
  | .bool enabled => return { usual with enabled }
  | _ =>
    let enabled ← j.boolOr "enabled" true
    let field ← j.textOr "field" usual.field
    return { enabled, field }

/-- Writes a scope field. -/
def toJson (s : ScopeField) : Json :=
  .record [("enabled", .bool s.enabled), ("field", .str s.field)]

end ScopeField

/-! ## Caching and access -/

/-- How long responses are kept, in seconds. -/
structure CachePolicy where
  enabled : Bool := false
  ttl : Int32 := 60
  /-- How long after that an old response is still handed out while a new one is made. -/
  staleWhileRevalidate : Int32 := 0
deriving Repr, DecidableEq, Inhabited

namespace CachePolicy

/-- Reads a cache section, which switches the cache on unless it says otherwise. -/
def ofJson (j : Json) : Json.Reading CachePolicy := do
  let enabled ← j.boolOr "enabled" true
  let ttl ← j.int32Or "ttl" 60
  let staleWhileRevalidate ← j.int32Or "stale_while_revalidate" 0
  return { enabled, ttl, staleWhileRevalidate }

/-- Writes a cache section. -/
def toJson (c : CachePolicy) : Json :=
  .record
    [("enabled", .bool c.enabled), ("ttl", .int c.ttl.toInt),
      ("stale_while_revalidate", .int c.staleWhileRevalidate.toInt)]

end CachePolicy

/-- Who may use a table: a caller with one of the roles and all of the permissions. -/
structure AccessRule where
  roles : List Bytes := []
  permissions : List Bytes := []
deriving Repr, DecidableEq, Inhabited

namespace AccessRule

/-- Whether the rule admits everyone. -/
def isEmpty (a : AccessRule) : Bool := a.roles.isEmpty && a.permissions.isEmpty

/-- Reads an access section. -/
def ofJson (j : Json) : Json.Reading AccessRule := do
  let roles ← j.textListOr "roles"
  let permissions ← j.textListOr "permissions"
  return { roles, permissions }

/-- Writes an access section. -/
def toJson (a : AccessRule) : Json :=
  .record [("roles", .ofTexts a.roles), ("permissions", .ofTexts a.permissions)]

end AccessRule

end TableQuery

import TableQuery.Table.Aggregation
import TableQuery.Table.Join
import TableQuery.Table.Section
import TableQuery.Table.Subquery

/-!
# Table descriptions

A `Table` says what of a database table may be asked for and how: it is read from JSON once and then
only looked at. `ofJson` reads it or says in one fault what is wrong; `toJson` writes it so that it
reads back.
-/

namespace TableQuery

/-- The description of one exposed table. -/
structure Table where
  name : Bytes
  /-- The table of the database. -/
  base : Bytes
  columns : List Column := []
  joins : List Join := []
  filters : List ConfiguredFilter := []
  filterGroups : List FilterTree := []
  /-- Conditions that always apply; a text value with a dollar sign in front refers to the context. -/
  backendConditions : List Condition := []
  search : Option Search := none
  defaultSort : List SortKey := []
  pagination : Pagination := {}
  aggregations : List Aggregation := []
  subqueries : List Subquery := []
  groupBy : Option GroupBy := none
  walk : Option TreeWalk := none
  softDelete : ScopeField := { field := "deletedAt" }
  tenant : ScopeField := { field := "tenantId" }
  cache : CachePolicy := {}
  access : AccessRule := {}
  dateRangeColumn : Bytes := []
deriving Repr

namespace Table

/-- The first column of a name. -/
def findColumn? (t : Table) (name : Bytes) : Option Column := t.columns.find? fun c => c.name == name

/-! ## Reading -/

/-- Reads a section that may be absent. -/
def section? {α : Type} (j : Json) (key : Bytes) (read : Json → Outcome α) (absent : α) : Outcome α :=
  match j.get? key with
  | none => .ok absent
  | some part => read part

/-- Reads the sections of a table whose name is known. -/
def readSections (name : Bytes) (j : Json) : Outcome Table := do
  let base ← j.textOr "base" name
  let columns ← (← j.elemsOr "columns").mapM Column.ofJson
  let joins ← (← j.elemsOr "joins").mapM Join.ofJson
  let filters ← (← j.elemsOr "filters").mapM ConfiguredFilter.ofJson
  let filterGroups ← (← j.elemsOr "filter_groups").mapM (FilterTree.ofJson .description)
  let backendConditions ← (← j.elemsOr "backend_conditions").mapM (Condition.ofJson .description)
  let search ← section? j "search" (fun s => some <$> Search.ofJson s) none
  let defaultSort ← (← j.elemsOr "default_sort").mapM SortKey.ofJson
  let pagination ← section? j "pagination" (fun p => Pagination.ofJson p) {}
  let aggregations ← (← j.elemsOr "aggregations").mapM Aggregation.ofJson
  let subqueries ← (← j.elemsOr "subqueries").mapM Subquery.ofJson
  let groupBy ← section? j "group_by" (fun g => some <$> GroupBy.ofJson g) none
  let walk ← section? j "recursive" (fun w => some <$> TreeWalk.ofJson name w) none
  let softDelete ← section? j "soft_delete"
    (fun s => ScopeField.ofJson { field := "deletedAt" } s) { field := "deletedAt" }
  let tenant ← section? j "tenant"
    (fun s => ScopeField.ofJson { field := "tenantId" } s) { field := "tenantId" }
  let cache ← section? j "cache" (fun c => CachePolicy.ofJson c) {}
  let access ← section? j "access" (fun a => AccessRule.ofJson a) {}
  let dateRangeColumn ← j.textOr "date_range_column" []
  return {
    name, base, columns, joins, filters, filterGroups, backendConditions, search, defaultSort
    pagination, aggregations, subqueries, groupBy, walk, softDelete, tenant, cache, access
    dateRangeColumn }

/-- The fault of a description with a value of the wrong kind. -/
def malformed (name : Bytes) (reason : Bytes) : Fault :=
  .config (Bytes.ofString "Malformed table config '" ++ name ++ "': " ++ reason)
    (.record [("table", .str name)])

/-- Reads a description. -/
def ofJson (j : Json) : Checked Table :=
  match j.textAt "name" with
  | .error mismatch => .error (malformed [] mismatch.text)
  | .ok name => (readSections name j).wordMismatch (malformed name)

/-! ## Writing -/

/-- Writes a list under a key, unless it is empty. -/
def listMember {α : Type} (key : Bytes) (toJson : α → Json) (items : List α) : List (Bytes × Json) :=
  Json.memberIf (!items.isEmpty) key (.arr (items.map toJson))

/-- Writes a description. -/
def toJson (t : Table) : Json :=
  .recordOf
    [[("name", .str t.name), ("base", .str t.base), ("columns", .arr (t.columns.map Column.toJson))],
      listMember "joins" Join.toJson t.joins,
      listMember "filters" ConfiguredFilter.toJson t.filters,
      listMember "filter_groups" FilterTree.toJson t.filterGroups,
      listMember "backend_conditions" Condition.toJson t.backendConditions,
      Json.member? "search" Search.toJson t.search,
      listMember "default_sort" SortKey.toJson t.defaultSort,
      [("pagination", t.pagination.toJson)],
      listMember "aggregations" Aggregation.toJson t.aggregations,
      listMember "subqueries" Subquery.toJson t.subqueries,
      Json.member? "group_by" GroupBy.toJson t.groupBy,
      Json.member? "recursive" TreeWalk.toJson t.walk,
      [("soft_delete", t.softDelete.toJson), ("tenant", t.tenant.toJson), ("cache", t.cache.toJson)],
      Json.memberIf (!t.access.isEmpty) "access" t.access.toJson,
      Json.memberIf (!t.dateRangeColumn.isEmpty) "date_range_column" (.str t.dateRangeColumn)]

end Table

end TableQuery

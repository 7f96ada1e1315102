import TableQuery.Field.Resolver
import TableQuery.Validation.Catalog

/-!
# Checking descriptions

Before a description is used, everything it refers to is looked up: names that go into SQL unquoted,
fields, keys, bounds, and with a catalog also tables and columns. All problems are found and reported
together; what depends on the fields is checked only if the fields themselves can be built.

Fields are built for the unknown dialect, which has every feature, so a description is not refused for
what one database lacks.
-/

namespace TableQuery

/-- Something wrong with a description, and where. -/
structure Problem where
  path : Bytes
  message : Bytes
deriving Repr, DecidableEq

namespace Problem

/-- Writes a problem. -/
def toJson (p : Problem) : Json := .record [("path", .str p.path), ("message", .str p.message)]

/-- A problem under a condition. -/
def when (wrong : Bool) (path message : Bytes) : List Problem :=
  if wrong then [{ path, message }] else []

/-- A name between quotes, and what is wrong with it. -/
def about (before name after : Bytes) : Bytes := before ++ Ascii.quote :: name ++ Ascii.quote :: after

/-- The path of an element of a list. -/
def index (path : Bytes) (i : Nat) : Bytes :=
  path ++ Ascii.leftBracket :: Bytes.ofNat i ++ [Ascii.rightBracket]

end Problem

namespace Validation

open Problem

/-! ## Names and tables -/

/-- A name that must be safe to write unquoted. -/
def identifier (path name : Bytes) : List Problem :=
  when (!Name.isSafeIdentifier name) path (about [] name " is not a valid identifier")

/-- A table that must exist, if the catalog is known. -/
def tableExists (catalog : Option Catalog) (path table : Bytes) : List Problem :=
  match catalog with
  | some c => when (!c.hasTable table) path (about "Table " table " does not exist")
  | none => []

/-- The name and the base table. -/
def basics (t : Table) (catalog : Option Catalog) : List Problem :=
  when t.name.isEmpty "name" "Table name is required" ++
    if t.base.isEmpty then [{ path := "base", message := "Base table is required" }]
    else identifier "base" t.base ++ tableExists catalog "base" t.base

/-! ## Columns and joins -/

/-- A column that must exist in its table, if the catalog knows the table. -/
def columnExists (catalog : Option Catalog) (path table column : Bytes) : List Problem :=
  match catalog with
  | some c =>
    when (!column.contains Ascii.dot && c.hasTable table && !c.hasColumn table column) path
      (about "Column " column (about " does not exist on " table []))
  | none => []

/-- A column at a path. -/
def column (catalog : Option Catalog) (table path : Bytes) (c : Column) : List Problem :=
  if c.name.isEmpty then [{ path, message := "Column name is required" }]
  else
    c.dbTransforms.flatMap (identifier (path ++ ".dbTransform")) ++
      if c.computed then
        when ((c.expression.map fun e => e.sql.isEmpty).getD true) path
          (about "Computed column " c.name " needs an expression")
      else
        identifier (path ++ ".field") c.source ++ columnExists catalog path table c.source

/-- The columns of a table. -/
def columns (catalog : Option Catalog) (table path : Bytes) (cs : List Column) : List Problem :=
  (cs.mapIdx fun i c => column catalog table (index path i) c).flatten

/-- The condition of a join. -/
def joinCondition (path : Bytes) : JoinCondition → List Problem
  | .columns left right => identifier path left ++ identifier path right
  | .sql trusted => when trusted.sql.isEmpty path "Join condition is required"

mutual

/-- A join at a path, with all that hangs on it. -/
def join (catalog : Option Catalog) (path : Bytes) : Join → List Problem
  | .mk table tableAlias _ condition cs joins =>
    identifier (path ++ ".table") table
      ++ (if tableAlias.isEmpty then [] else identifier (path ++ ".alias") tableAlias)
      ++ joinCondition (path ++ ".on") condition
      ++ tableExists catalog (path ++ ".table") table
      ++ columns catalog table (path ++ ".columns") cs
      ++ joinsFrom catalog (path ++ ".joins") 0 joins

/-- The joins of a list, numbered from a start. -/
def joinsFrom (catalog : Option Catalog) (path : Bytes) (i : Nat) : List Join → List Problem
  | [] => []
  | j :: rest => join catalog (index path i) j ++ joinsFrom catalog path (i + 1) rest

end

/-! ## Subqueries -/

/-- An operand of a correlation. -/
def operand (path : Bytes) : Operand → List Problem
  | .column name => identifier path name
  | .literal _ => []

/-- A comparison of a correlation. -/
def correlation (path : Bytes) (c : Correlation) : List Problem :=
  operand path c.left ++ operand path c.right

mutual

/-- A predicate, comparison by comparison. -/
def predicate (path : Bytes) : Predicate → List Problem
  | .compare c => correlation path c
  | .all children => predicates path children
  | .any children => predicates path children
  | .not child => predicate path child

/-- The predicates of a list. -/
def predicates (path : Bytes) : List Predicate → List Problem
  | [] => []
  | p :: rest => predicate path p ++ predicates path rest

end

/-- A subquery at a path. -/
def subquery (catalog : Option Catalog) (path : Bytes) (s : Subquery) : List Problem :=
  when s.name.isEmpty path "Subquery alias is required"
    ++ identifier (path ++ ".table") s.table
    ++ tableExists catalog (path ++ ".table") s.table
    ++ (s.predicate.map (predicate (path ++ ".where"))).getD []
    ++ s.conditions.flatMap (correlation (path ++ ".conditions"))

/-- The subqueries of a table. -/
def subqueries (t : Table) (catalog : Option Catalog) : List Problem :=
  (t.subqueries.mapIdx fun i s => subquery catalog (index "subqueries" i) s).flatten

/-! ## References to fields -/

/-- A field that must exist, and what else must hold of it. -/
def fieldAnd (r : Resolver) (path name : Bytes) (check : Field → List Problem) : List Problem :=
  match r.resolve name with
  | some f => check f
  | none => [{ path, message := about "Unknown field " name [] }]

/-- A field that must exist. -/
def field (r : Resolver) (path name : Bytes) : List Problem := fieldAnd r path name fun _ => []

/-- Whether a static filter of this kind needs a value. -/
def needsValue : Operator → Bool
  | .isNull | .isNotNull | .eq | .neq => false
  | _ => true

/-- A configured filter at a path. -/
def filter (r : Resolver) (path : Bytes) (f : ConfiguredFilter) : List Problem :=
  let name := f.condition.field
  fieldAnd r path name (fun g => when (!g.scalar) path (about "Field " name " cannot be filtered"))
    ++ when (f.kind == .static && f.condition.value.isNull && needsValue f.condition.op) path
      (about "Static filter on " name " needs a value")

mutual

/-- The fields of a filter tree. -/
def filterTree (r : Resolver) (path : Bytes) : FilterTree → List Problem
  | .leaf c => field r path c.field
  | .group _ children => filterTrees r path children

/-- The fields of the filter trees of a list. -/
def filterTrees (r : Resolver) (path : Bytes) : List FilterTree → List Problem
  | [] => []
  | t :: rest => filterTree r path t ++ filterTrees r path rest

end

/-- The filters, backend conditions and filter trees. -/
def filters (r : Resolver) : List Problem :=
  let t := r.table
  (t.filters.mapIdx fun i f => filter r (index "filters" i) f).flatten
    ++ (t.backendConditions.mapIdx fun i c => field r (index "backendConditions" i) c.field).flatten
    ++ (t.filterGroups.mapIdx fun i g => filterTree r (index "filterGroups" i) g).flatten

/-- The search fields. -/
def search (r : Resolver) : List Problem :=
  let path := Bytes.ofString "search.fields"
  ((r.table.search.map Search.fields).getD []).flatMap fun name =>
    fieldAnd r path name fun f =>
      when (!f.supports .search) path (about "Field " name " cannot be searched")

/-- The description's own order. -/
def defaultSort (r : Resolver) : List Problem :=
  let path := Bytes.ofString "defaultSort"
  r.table.defaultSort.flatMap fun key =>
    fieldAnd r path key.field fun f =>
      when (!f.supports .sort) path (about "Field " key.field " is not sortable")

/-- The page sizes. -/
def pagination (p : Pagination) : List Problem :=
  when (p.defaultPageSize < 1) "pagination.defaultPageSize" "Must be at least 1"
    ++ when (p.maxPageSize < p.defaultPageSize) "pagination.maxPageSize"
      "Must not be smaller than defaultPageSize"

/-! ## Aggregates -/

/-- The aggregates, given the names of those before. -/
def aggregationsFrom (r : Resolver) (i : Nat) (seen : List Bytes) : List Aggregation → List Problem
  | [] => []
  | a :: rest =>
    let path := index "aggregations" i
    let fieldPath := path ++ ".field"
    (if a.name.isEmpty then [{ path, message := "Aggregation alias is required" }]
      else when (seen.contains a.name) path (about "Duplicate aggregation alias " a.name []))
      ++ fieldAnd r fieldPath a.field (fun f =>
        when (!f.scalar) fieldPath (about "Field " a.field " cannot be aggregated"))
      ++ aggregationsFrom r (i + 1) (a.name :: seen) rest

/-- The grouping. -/
def grouping (r : Resolver) (g : GroupBy) : List Problem :=
  let path := Bytes.ofString "groupBy.fields"
  let names := (r.table.aggregations.map Aggregation.name).filter fun name => !name.isEmpty
  when g.fields.isEmpty path "At least one group field is required"
    ++ g.fields.flatMap (fun name =>
      fieldAnd r path name fun f =>
        when (!f.scalar) path (about "Field " name " cannot be grouped"))
    ++ g.having.flatMap fun h =>
      when (!names.contains h.name) "groupBy.having" (about "Unknown aggregation alias " h.name [])

/-- The aggregates and the grouping. -/
def aggregations (r : Resolver) : List Problem :=
  aggregationsFrom r 0 [] r.table.aggregations
    ++ (r.table.groupBy.map (grouping r)).getD []

/-! ## Trees and scope -/

/-- A key of the walk. -/
def walkKey (r : Resolver) (path key : Bytes) : List Problem :=
  fieldAnd r path key fun f =>
    when (f.source != .base) path (about "Key " key " must be a base table column")

/-- The walk down a tree of rows. -/
def walk (r : Resolver) (w : TreeWalk) : List Problem :=
  when (w.maxDepth < 1) "recursive.maxDepth" "Must be at least 1"
    ++ walkKey r "recursive.parentKey" w.parentKey
    ++ walkKey r "recursive.childKey" w.childKey
    ++ identifier "recursive.depthAlias" w.depthName
    ++ (if w.pathName.isEmpty then [] else identifier "recursive.pathAlias" w.pathName)
    ++ (w.startWith.map fun c => field r "recursive.startWith" c.field).getD []

/-- The fields that every statement is restricted by. -/
def scopes (r : Resolver) : List Problem :=
  let t := r.table
  (if t.softDelete.enabled then field r "softDelete.field" t.softDelete.field else [])
    ++ (if t.tenant.enabled then field r "tenant.field" t.tenant.field else [])
    ++ (if t.dateRangeColumn.isEmpty then [] else field r "dateRangeColumn" t.dateRangeColumn)

/-! ## The whole description -/

/-- What is checked once the fields are built. -/
def references (r : Resolver) : List Problem :=
  filters r ++ search r ++ defaultSort r ++ pagination r.table.pagination ++ aggregations r
    ++ (r.table.walk.map (walk r)).getD [] ++ scopes r

/-- Everything that is wrong with a description. -/
def problems (t : Table) (catalog : Option Catalog) : List Problem :=
  basics t catalog
    ++ columns catalog t.base "columns" t.columns
    ++ joinsFrom catalog "joins" 0 t.joins
    ++ subqueries t catalog
    ++ match Resolver.ofTable t .unknown with
      | .ok r => references r
      | .error fault => [{ path := "columns", message := fault.message }]

end Validation

namespace Table

/-- Refuses a description with problems. -/
def validate (t : Table) (catalog : Option Catalog) : Checked Unit :=
  match Validation.problems t catalog with
  | [] => .ok ()
  | problems =>
    .error (.config (Bytes.ofString "Invalid configuration for table '" ++ t.name ++ "'")
      (.record [("table", .str t.name), ("problems", .arr (problems.map Problem.toJson))]))

end Table

end TableQuery

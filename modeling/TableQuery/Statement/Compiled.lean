import TableQuery.Access.Rule
import TableQuery.Access.Visibility
import TableQuery.Statement.Aggregate
import TableQuery.Statement.Condition
import TableQuery.Statement.Keyset
import TableQuery.Statement.Scope
import TableQuery.Statement.Search
import TableQuery.Statement.Tree

/-!
# Compiled requests

From a description, parameters and a context to the statements that answer the request. Every entry
point first checks the table's access rule and then works on the description as the caller's roles let
it be seen (`effective`).

The condition of a statement is one conjunction in a fixed order: the scope, the description's static
filters and filter trees, the request's filters and filter trees, the search, and on a page by cursor
the continuation. The count and the aggregates are over the same rows as the data, whatever the page.
-/

namespace TableQuery

/-- How the rows of a request are cut into pages. -/
inductive Paging where
  | byNumber (window : Window)
  | byCursor (keyset : Keyset)
deriving Repr

/-- The statements of a request, and the fields that its response has. -/
structure Compiled where
  data : Plan
  count : Plan
  aggregations : Option Plan
  paging : Paging
  outputFields : List Bytes
deriving Repr

namespace Compiled

/-- A key of a cursor's order, as it is handed out. -/
def keyToJson (t : OrderTerm) : Json :=
  .record [("field", .str t.field), ("direction", .str t.direction.name)]

/-- The page of a request, as it is handed out. -/
def pagingToJson : Paging → Json
  | .byNumber w =>
    .record [("enabled", .bool w.enabled), ("page", .ofInt64 w.page), ("pageSize", .ofInt64 w.pageSize),
      ("offset", .ofInt64 w.offset)]
  | .byCursor k =>
    .record [("pageSize", .ofInt64 k.pageSize), ("keys", .arr (k.order.map keyToJson))]

/-- The name of a way of paging. -/
def modeName : Paging → Bytes
  | .byNumber _ => "offset"
  | .byCursor _ => "cursor"

/-- Compiled statements as they are handed out. -/
def toJson (c : Compiled) : Json :=
  .recordOf
    [[("mode", .str (modeName c.paging)), ("data", c.data.toJson), ("count", c.count.toJson),
        ("fields", .ofTexts c.outputFields), ("pagination", pagingToJson c.paging)],
      Json.member? "aggregations" Plan.toJson c.aggregations]

end Compiled

namespace Table

/-- The description that a caller gets, if the caller may use the table. -/
def effective (t : Table) (c : Context) : Checked Table := do
  t.checkAccess c
  return if t.hasRoleRestrictions then t.visibleTo c.roles else t

end Table

namespace Context

/-- The day of a request; `clock` is the time when the context has none. -/
def today (c : Context) (clock : Instant) : Day := (c.now.getD clock).day

end Context

namespace Resolver

/-! ## Conditions -/

/-- The condition on the rows of a request. -/
def condition (r : Resolver) (p : Params) (c : Context) (day : Day) : Checked Fragment := do
  let limits : Limits := {}
  let scope ← r.scope c p.includeDeleted
  let static ← r.staticFilters day
  let groups ← r.configuredGroups day
  let filters ← r.requestFilters limits day p.filters
  let requestGroups ← r.requestGroups limits day p.filterGroups
  let search ← r.search limits p.search
  return Fragment.all [scope, static, groups, filters, requestGroups, search]

/-! ## Selections -/

/-- The fields that a response may have. -/
def selectable (r : Resolver) : List Field := r.fields.filter fun f => f.supports .select

/-- The name of the field that every selection has. -/
def idName : Bytes := "id"

/-- The `id` field in front of chosen fields that lack it, where it can be selected. -/
def withId (r : Resolver) (chosen : List Field) : List Field :=
  match find? idName r.fields with
  | some f =>
    if f.supports .select && !chosen.any fun c => c.name == idName then f :: chosen else chosen
  | none => chosen

/-- The fields of a response: all, or the selected ones and the `id` field; all again if none of the
selected names is known. -/
def chosenFields (r : Resolver) (select : List Bytes) : List Field :=
  if select.isEmpty then r.selectable
  else match r.selectable.filter fun f => select.contains f.name with
    | [] => r.selectable
    | chosen => r.withId chosen

/-- The expression that a field is selected by. -/
def selectionOf (r : Resolver) (f : Field) : Checked SelectItem := do
  match f.origin with
  | .subquery s =>
    if f.scalar then return { name := f.name, expression := f.selectExpression }
    else return { name := f.name, expression := ← s.toSql r.dialect }
  | .column _ => return { name := f.name, expression := f.selectExpression }

/-- A plan over the rows of the table and its joins. -/
def basePlan (r : Resolver) : Plan :=
  { dialect := r.dialect, base := r.table.base, joins := r.joins.clauses }

/-- The plan that counts rows. -/
def countPlan (r : Resolver) (condition : Fragment) : Plan :=
  { r.basePlan with
    select := [{ name := "total", expression := Fragment.text "count(*)" }]
    condition }

/-- A boundary value of a page by cursor, selected under its own name. -/
def boundaryItem (t : OrderTerm) : SelectItem :=
  { name := Keyset.boundaryName t.field, expression := t.expression }

/-! ## Statements of a request -/

/-- The data plan of a page, and how it is paged. -/
def dataPlan (r : Resolver) (p : Params) (select : List SelectItem) (condition : Fragment) :
    Checked (Plan × Paging) := do
  match p.cursor with
  | some token =>
    let keyset ← Keyset.ofRequest r (some token) p.pageSize p.sort
    let plan :=
      { r.basePlan with
        select := select ++ keyset.order.map boundaryItem
        condition := Fragment.all [condition, keyset.continuation]
        order := keyset.order
        limit := some keyset.fetchLimit }
    return (plan, .byCursor keyset)
  | none =>
    let window := Window.ofRequest r.table.pagination p.page p.pageSize
    let plan :=
      { r.basePlan with
        select, condition
        order := r.lenientOrder p.sort
        limit := window.limit
        offset := window.offset }
    return (plan, .byNumber window)

/-- The plan of the aggregates, if the description has any. -/
def aggregationPlan (r : Resolver) (condition : Fragment) : Checked (Option Plan) := do
  if r.table.aggregations.isEmpty then return none
  else return some { r.basePlan with select := ← r.aggregateSelection, condition }

/-- The terms that a grouped request sorts by: group fields and aggregates only. -/
def groupedTerms (r : Resolver) (fields : List Bytes) (key : SortKey) : Checked (List OrderTerm) :=
  if fields.contains key.field then
    .ok ((r.resolve key.field).toList.map fun f =>
      { field := f.name, expression := f.expression, direction := key.direction })
  else
    (r.table.aggregations.filter fun a => a.name == key.field).mapM fun a => do
      return { field := a.name, expression := ← r.aggregate a, direction := key.direction }

/-- The order of a grouped request: by the group fields where the request asks for none. -/
def groupedOrder (r : Resolver) (fields : List Bytes) (grouping : Grouping) (sort : List SortKey) :
    Checked (List OrderTerm) := do
  let terms ← sort.mapM (r.groupedTerms fields)
  match terms.flatten with
  | [] =>
    return (grouping.select.zip grouping.groupBy).map fun (item, expression) =>
      { field := item.name, expression, direction := .asc }
  | terms => return terms

end Resolver

namespace Table

/-- The statements of a request. -/
def compile (t : Table) (d : Dialect) (p : Params) (c : Context) (clock : Instant) :
    Checked Compiled := do
  let r ← Resolver.ofTable (← t.effective c) d
  let condition ← r.condition p c (c.today clock)
  let fields := r.chosenFields p.select
  let select ← fields.mapM r.selectionOf
  let (data, paging) ← r.dataPlan p select condition
  let aggregations ← r.aggregationPlan condition
  return {
    data, count := r.countPlan condition, aggregations, paging
    outputFields := fields.map Field.name }

/-- The statement that counts the rows of a request. -/
def compileCount (t : Table) (d : Dialect) (p : Params) (c : Context) (clock : Instant) :
    Checked Plan := do
  let r ← Resolver.ofTable (← t.effective c) d
  return r.countPlan (← r.condition p c (c.today clock))

/-- The fault of a grouped request to a table without a grouping. -/
def noGrouping (t : Table) : Fault :=
  .config (Bytes.ofString "Table '" ++ t.name ++ "' has no group_by configuration")
    (.record [("table", .str t.name)])

/-- The grouped statement of a request. -/
def compileGrouped (t : Table) (d : Dialect) (p : Params) (c : Context) (clock : Instant) :
    Checked Plan := do
  let effective ← t.effective c
  match effective.groupBy with
  | none => .error effective.noGrouping
  | some groupBy =>
    let r ← Resolver.ofTable effective d
    let grouping ← r.grouping
    let condition ← r.condition p c (c.today clock)
    let order ← r.groupedOrder groupBy.fields grouping p.sort
    return { r.basePlan with
      select := grouping.select, condition, groupBy := grouping.groupBy, having := grouping.having
      order }

/-- The statement that walks the tree of a table, in the scope of a request. -/
def compileTree (t : Table) (d : Dialect) (p : Params) (c : Context) : Checked Fragment := do
  let r ← Resolver.ofTableAs TreeWalk.treeName (← t.effective c) d
  r.walkStatement (← r.scope c p.includeDeleted)

end Table

end TableQuery

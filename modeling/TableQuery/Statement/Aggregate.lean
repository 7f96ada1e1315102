import TableQuery.Field.Resolver
import TableQuery.Statement.Plan

/-!
# Aggregates in statements

The selections of aggregates, over all rows or over groups. A condition on groups repeats the aggregate
it is about, since its output name cannot be used there.
-/

namespace TableQuery

/-- The parts of a grouped statement: the group fields and then the aggregates, the fields to group by,
and the condition on groups. -/
structure Grouping where
  select : List SelectItem := []
  groupBy : List Fragment := []
  having : Fragment := .empty
deriving Repr

namespace Resolver

/-- A field that has one value in each row. -/
def scalar? (r : Resolver) (name : Bytes) : Option Field := (r.resolve name).filter Field.scalar

/-- The call of an aggregate. -/
def aggregate (r : Resolver) (a : Aggregation) : Checked Fragment :=
  match r.scalar? a.field with
  | some f => .ok ((Fragment.text (a.type.name ++ [Ascii.leftParen]) ++ f.expression).add ")")
  | none =>
    .error (.config
      (Bytes.ofString "Aggregation '" ++ a.name ++ "' references unusable field '" ++ a.field ++ "'")
      (.record [("alias", .str a.name), ("field", .str a.field)]))

/-- The aggregates of the description. -/
def aggregates (r : Resolver) : Checked (List SelectItem) :=
  r.table.aggregations.mapM fun a => do return { name := a.name, expression := ← r.aggregate a }

/-- The output name of the number of rows beside the aggregates. -/
def totalCountName : Bytes := "_totalCount"

/-- The aggregates over all rows, and how many rows there are. -/
def aggregateSelection (r : Resolver) : Checked (List SelectItem) := do
  return (← r.aggregates) ++ [{ name := totalCountName, expression := Fragment.text "count(*)" }]

/-- The aggregate that a condition on groups names. -/
def findAggregation (r : Resolver) (name : Bytes) : Checked Aggregation :=
  match r.table.aggregations.find? fun a => a.name == name with
  | some a => .ok a
  | none =>
    .error (.config (Bytes.ofString "HAVING references unknown aggregation '" ++ name ++ "'")
      (.record [("alias", .str name), ("table", .str r.table.name)]))

/-- One condition on groups. -/
def havingCondition (r : Resolver) (h : HavingCondition) : Checked Fragment := do
  let left ← r.aggregate (← r.findAggregation h.name)
  return h.op.apply left (Fragment.value h.value) r.dialect

/-- The condition on groups. -/
def having (r : Resolver) : Checked Fragment :=
  match r.table.groupBy with
  | none => .ok .empty
  | some g => do return Fragment.all (← g.having.mapM r.havingCondition)

/-- A field to group by. -/
def groupField (r : Resolver) (name : Bytes) : Checked Field :=
  match r.scalar? name with
  | some f => .ok f
  | none =>
    .error (.config (Bytes.ofString "GROUP BY references unusable field '" ++ name ++ "'")
      (.record [("field", .str name), ("table", .str r.table.name)]))

/-- The parts of the grouped statement; empty without a grouping in the description. -/
def grouping (r : Resolver) : Checked Grouping :=
  match r.table.groupBy with
  | none => .ok {}
  | some g => do
    let fields ← g.fields.mapM r.groupField
    let aggregates ← r.aggregates
    let having ← r.having
    return {
      select := fields.map (fun f => { name := f.name, expression := f.expression }) ++ aggregates
      groupBy := fields.map Field.expression
      having }

end Resolver

end TableQuery

import TableQuery.Sql.Operator

/-!
# Aggregates and groups

The aggregates of a description, the fields it groups rows by, and the conditions on groups, each of
which compares an aggregate with a bound value.
-/

namespace TableQuery

/-- A function over the rows of a group. -/
inductive AggregationType where
  | count
  | sum
  | avg
  | min
  | max
deriving Repr, DecidableEq, Inhabited

namespace AggregationType

/-- The name of an aggregate function, in descriptions and in SQL. -/
def name : AggregationType → Bytes
  | count => "count"
  | sum => "sum"
  | avg => "avg"
  | min => "min"
  | max => "max"

/-- The names of the aggregate functions. -/
def vocabulary : Vocabulary AggregationType where
  kind := "aggregation type"
  words :=
    [AggregationType.count, AggregationType.sum, AggregationType.avg, AggregationType.min,
      AggregationType.max].map fun t => (t.name, t)

end AggregationType

/-- An aggregate of a field, with its output name. -/
structure Aggregation where
  name : Bytes
  type : AggregationType := .count
  field : Bytes
deriving Repr, Inhabited

namespace Aggregation

/-- Reads an aggregate. -/
def ofJson (j : Json) : Outcome Aggregation := do
  let name ← j.textAt "alias"
  let type ← AggregationType.vocabulary.read (← j.textAt "type")
  let field ← j.textAt "field"
  return { name, type, field }

/-- Writes an aggregate. -/
def toJson (a : Aggregation) : Json :=
  .record [("alias", .str a.name), ("type", .str a.type.name), ("field", .str a.field)]

end Aggregation

/-- A condition on groups: an aggregate, by its output name, compared with a value. -/
structure HavingCondition where
  name : Bytes
  op : Comparison := .eq
  value : Json
deriving Repr, Inhabited

namespace HavingCondition

/-- Reads a condition on groups. -/
def ofJson (j : Json) : Outcome HavingCondition := do
  let name ← j.textAt "alias"
  let op ← Comparison.vocabulary.read (← j.textOr "op" "eq")
  let value ← j.member "value"
  return { name, op, value }

/-- Writes a condition on groups. -/
def toJson (h : HavingCondition) : Json :=
  .record [("alias", .str h.name), ("op", .str h.op.name), ("value", h.value)]

end HavingCondition

/-- The fields that make the groups, and the conditions on groups. -/
structure GroupBy where
  fields : List Bytes := []
  having : List HavingCondition := []
deriving Repr, Inhabited

namespace GroupBy

/-- Reads a grouping. -/
def ofJson (j : Json) : Outcome GroupBy := do
  let fields ← j.textListOr "fields"
  let having ← (← j.elemsOr "having").mapM HavingCondition.ofJson
  return { fields, having }

/-- Writes a grouping. -/
def toJson (g : GroupBy) : Json :=
  .record [("fields", .ofTexts g.fields), ("having", .arr (g.having.map HavingCondition.toJson))]

end GroupBy

end TableQuery

import TableQuery.Response.Transform
import TableQuery.Table.Basic

/-!
# Responses

What a caller receives: rows, what there is to say about the page, and aggregates. The rows of an
executor are shaped to it: a shaped row has the output fields and nothing else, without those of hidden
columns, each value changed by its column's transforms in turn.
-/

namespace TableQuery

/-- The answer to a request. -/
structure Response where
  rows : List Json := []
  /-- What there is to say about the page. -/
  pageInfo : Json := .obj []
  aggregations : Option Json := none
deriving Repr

namespace Response

/-- Writes a response. -/
def toJson (r : Response) : Json :=
  .recordOf
    [[("data", .arr r.rows), ("meta", r.pageInfo)], Json.member? "aggregations" id r.aggregations]

/-- Reads a response. -/
def ofJson (j : Json) : Json.Reading Response := do
  let rows ← (← j.getOr "data" (.arr [])).asArray
  let pageInfo ← j.getOr "meta" (.obj [])
  return { rows, pageInfo, aggregations := j.get? "aggregations" }

end Response

namespace Join

mutual

/-- The columns below a join, in the order in which they are looked through: those of the joins on it
first, then what is below the last of them, up to the first. -/
def columnsBelow : Join → List Column
  | mk _ _ _ _ _ joins => joins.flatMap columns ++ columnsBelowAll joins

/-- The columns below each join of a list, the last join's first. -/
def columnsBelowAll : List Join → List Column
  | [] => []
  | j :: rest => columnsBelowAll rest ++ j.columnsBelow

end

end Join

namespace Table

/-- The column whose hiding and transforms apply to an output field: one of the table's own, or the
first of the joins'. -/
def outputColumn? (t : Table) (name : Bytes) : Option Column :=
  (t.findColumn? name).or <|
    (t.joins.flatMap Join.columns ++ Join.columnsBelowAll t.joins).find? fun c => c.name == name

/-- The value of an output field, changed by its column's transforms. -/
def shapeValue (transforms : TransformRegistry) (row : Json) (names : List Bytes) (value : Json) :
    Outcome Json :=
  names.foldlM (fun value name => transforms.apply name value row) value

/-- The member that an output field has in a shaped row, none if its column is hidden. -/
def shapeMember (t : Table) (transforms : TransformRegistry) (row : Json) (name : Bytes) :
    Outcome (List (Bytes × Json)) := do
  let value := (row.get? name).getD .null
  match t.outputColumn? name with
  | none => return [(name, value)]
  | some column =>
    if column.hidden then return []
    else return [(name, ← shapeValue transforms row column.valueTransforms value)]

/-- A row with the output fields. -/
def shapeRow (t : Table) (transforms : TransformRegistry) (fields : List Bytes) (row : Json) :
    Outcome Json := do
  return .recordOf (← fields.mapM (t.shapeMember transforms row))

/-- The response of an executor's rows. -/
def shape (t : Table) (transforms : TransformRegistry) (rows : List Json) (fields : List Bytes)
    (pageInfo : Json) (aggregations : Option Json) : Outcome Response := do
  return { rows := ← rows.mapM (t.shapeRow transforms fields), pageInfo, aggregations }

end Table

end TableQuery

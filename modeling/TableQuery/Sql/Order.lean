import TableQuery.Sql.Fragment
import TableQuery.Vocabulary

/-!
# Orders

The direction of a sort key, and the terms of an `ORDER BY` list.
-/

namespace TableQuery

/-- The direction of a sort key. -/
inductive SortDirection where
  | asc
  | desc
deriving Repr, DecidableEq, Inhabited

namespace SortDirection

/-- The name of a direction. -/
def name : SortDirection → Bytes
  | asc => "asc"
  | desc => "desc"

/-- The keyword of a direction. -/
def keyword : SortDirection → Bytes
  | asc => " ASC"
  | desc => " DESC"

/-- The names of the directions. -/
def vocabulary : Vocabulary SortDirection where
  kind := "sort direction"
  words := [asc, desc].map fun d => (d.name, d)

/-- A field's name with its direction: a minus sign in front asks for the descending order. -/
def ofSigned (field : Bytes) : Bytes × SortDirection :=
  match field with
  | Ascii.minus :: rest => (rest, desc)
  | _ => (field, asc)

end SortDirection

/-- One key of an order: the field it sorts by, its expression, and whether that may be null. -/
structure OrderTerm where
  field : Bytes
  expression : Fragment
  direction : SortDirection := .asc
  nullable : Bool := true
deriving Repr, Inhabited

/-- The list of terms after `ORDER BY`. -/
def OrderTerm.listToSql (terms : List OrderTerm) : Fragment :=
  Fragment.join ", " (terms.map fun t => t.expression.add t.direction.keyword)

end TableQuery

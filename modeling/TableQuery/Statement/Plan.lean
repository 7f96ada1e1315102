import TableQuery.Field.JoinPlan
import TableQuery.Sql.Order

/-!
# Plans

A `SELECT` statement by its parts. `Plan.toSql` puts the parts together in the order of the clauses; a
clause without content is left out, and a plan that selects nothing in particular selects everything.
-/

namespace TableQuery

/-- An expression with its output name. -/
structure SelectItem where
  name : Bytes
  expression : Fragment
deriving Repr, Inhabited

/-- One `SELECT` statement. -/
structure Plan where
  dialect : Dialect
  base : Bytes
  select : List SelectItem := []
  joins : List JoinClause := []
  condition : Fragment := .empty
  groupBy : List Fragment := []
  having : Fragment := .empty
  order : List OrderTerm := []
  limit : Option Int64 := none
  offset : Int64 := 0
deriving Repr

namespace Plan

/-- An item of the selection. -/
def itemToSql (d : Dialect) (item : SelectItem) : Fragment :=
  (item.expression.add " AS ").add (d.quoteName item.name)

/-- What is selected. -/
def selection (p : Plan) : Fragment :=
  if p.select.isEmpty then Fragment.text [Ascii.star]
  else Fragment.join ", " (p.select.map (itemToSql p.dialect))

/-- The joins, each after a blank. -/
def joinList (p : Plan) : Fragment :=
  p.joins.foldl (fun acc join => acc.add " " ++ join.toSql p.dialect) .empty

/-- A clause, or nothing if it has no content. -/
def clause (keyword : Bytes) (content : Fragment) : Fragment :=
  if content.isEmpty then .empty else Fragment.text keyword ++ content

/-- A list clause, or nothing if the list is empty. -/
def listClause (keyword : Bytes) (content : List Fragment) : Fragment :=
  if content.isEmpty then .empty else Fragment.text keyword ++ Fragment.join ", " content

/-- The clause that cuts out a page. -/
def pageClause (p : Plan) : Fragment :=
  match p.limit with
  | none => .empty
  | some limit =>
    let limited := Fragment.text (Bytes.ofString " LIMIT " ++ Bytes.ofInt limit.toInt)
    if 0 < p.offset then limited.add (Bytes.ofString " OFFSET " ++ Bytes.ofInt p.offset.toInt)
    else limited

/-- The statement. -/
def toSql (p : Plan) : Fragment :=
  let head :=
    ((Fragment.text "SELECT " ++ p.selection).add " FROM ").add (p.dialect.quoteName p.base)
  let order := if p.order.isEmpty then .empty else
    Fragment.text " ORDER BY " ++ OrderTerm.listToSql p.order
  head ++ p.joinList ++ clause " WHERE " p.condition ++ listClause " GROUP BY " p.groupBy
    ++ clause " HAVING " p.having ++ order ++ p.pageClause

/-- The statement as it is handed out. -/
def toJson (p : Plan) : Json := p.toSql.statementToJson p.dialect

end Plan

end TableQuery

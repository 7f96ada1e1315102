import TableQuery.Table.Subquery

/-!
# Correlated subqueries

The SQL of a subquery over one row of the outer statement. Its correlation is the predicate tree if
there is one, else the list of comparisons, else the trusted filter, else a condition that always holds;
so it is never empty. Literals are bound.
-/

namespace TableQuery

namespace Operand

/-- The expression of an operand. -/
def toSql (d : Dialect) : Operand → Fragment
  | column name => Fragment.identifier d name
  | literal value => Fragment.value value

end Operand

namespace Correlation

/-- The condition of a comparison. -/
def toSql (d : Dialect) (c : Correlation) : Fragment := c.op.apply (c.left.toSql d) (c.right.toSql d) d

end Correlation

namespace Predicate

/-- A condition, or one that always holds in place of none. -/
def orTrue (f : Fragment) : Fragment := if f.isEmpty then .alwaysTrue else f

mutual

/-- The condition of a predicate. -/
def toSql (d : Dialect) : Predicate → Fragment
  | compare c => c.toSql d
  | all children => orTrue (Fragment.all (listToSql d children))
  | any children => orTrue (Fragment.any (listToSql d children))
  | not child => Fragment.not (child.toSql d)

/-- The condition of each predicate of a list. -/
def listToSql (d : Dialect) : List Predicate → List Fragment
  | [] => []
  | p :: rest => p.toSql d :: listToSql d rest

end

end Predicate

namespace Subquery

/-- The condition that ties the subquery's rows to the outer row. -/
def correlation (d : Dialect) (s : Subquery) : Fragment :=
  match s.predicate with
  | some p => p.toSql d
  | none =>
    if !s.conditions.isEmpty then Fragment.all (s.conditions.map (Correlation.toSql d))
    else match s.filter with
      | some trusted => if trusted.sql.isEmpty then .alwaysTrue else Fragment.trusted trusted
      | none => .alwaysTrue

/-- The expression of a subquery. Fetching a row packs it into one value, which not every dialect
can. -/
def toSql (d : Dialect) (s : Subquery) : Checked Fragment :=
  let table := d.quoteName s.table
  match s.mode with
  | .count =>
    .ok (((Fragment.text (Bytes.ofString "(SELECT count(*) FROM " ++ table ++ " WHERE "))
      ++ s.correlation d).add ")")
  | .exists =>
    .ok (((Fragment.text (Bytes.ofString "EXISTS (SELECT 1 FROM " ++ table ++ " WHERE "))
      ++ s.correlation d).add ")")
  | .first => do
    d.require .rowToJson
    let row := d.quoteName (Ascii.underscore :: s.name)
    return ((Fragment.text
        (Bytes.ofString "(SELECT row_to_json(" ++ row ++ ") FROM (SELECT * FROM " ++ table ++ " WHERE "))
      ++ s.correlation d).add (Bytes.ofString " LIMIT 1) " ++ row ++ ")")

end Subquery

end TableQuery

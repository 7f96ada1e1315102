import TableQuery.Sql.Operator

/-!
# Subqueries

A subquery counts, tests or fetches rows of another table that are correlated with the row at hand. The
correlation is a predicate tree, a list of comparisons, trusted SQL, or several of these. An operand of
a comparison is a column or a literal; a literal is always bound.
-/

namespace TableQuery

/-- What a subquery answers. -/
inductive SubqueryMode where
  | count
  | exists
  | first
deriving Repr, DecidableEq, Inhabited

namespace SubqueryMode

/-- The name of a mode. -/
def name : SubqueryMode → Bytes
  | .count => "count"
  | .exists => "exists"
  | .first => "first"

/-- The names of the modes. -/
def vocabulary : Vocabulary SubqueryMode where
  kind := "subquery mode"
  words := [SubqueryMode.count, SubqueryMode.exists, SubqueryMode.first].map fun m => (m.name, m)

end SubqueryMode

/-- One side of a comparison. -/
inductive Operand where
  | column (name : Bytes)
  | literal (value : Json)
deriving Repr

namespace Operand

/-- Reads an operand. -/
def ofJson (j : Json) : Outcome Operand :=
  match j.get? "column", j.get? "value" with
  | some name, _ => do return .column (← name.asText)
  | none, some value => .ok (.literal value)
  | none, none =>
    (Fault.config
      "Subquery operand must be \x7b\"column\": ...\x7d or \x7b\"value\": ...\x7d"
      (.record [("operand", j)])).raise

/-- Writes an operand. -/
def toJson : Operand → Json
  | column name => .record [("column", .str name)]
  | literal value => .record [("value", value)]

end Operand

/-- Two operands compared. -/
structure Correlation where
  left : Operand
  op : Comparison := .eq
  right : Operand
deriving Repr

namespace Correlation

/-- Reads a comparison of two operands. -/
def ofJson (j : Json) : Outcome Correlation := do
  let left ← Operand.ofJson (← j.member "left")
  let op ← Comparison.vocabulary.read (← j.textOr "op" "eq")
  let right ← Operand.ofJson (← j.member "right")
  return { left, op, right }

/-- Writes a comparison of two operands. -/
def toJson (c : Correlation) : Json :=
  .record [("left", c.left.toJson), ("op", .str c.op.name), ("right", c.right.toJson)]

end Correlation

/-- Comparisons combined to any depth. -/
inductive Predicate where
  | compare (correlation : Correlation)
  | all (children : List Predicate)
  | any (children : List Predicate)
  | not (child : Predicate)
deriving Repr

namespace Predicate

/-- Reads a predicate. -/
def ofJson (j : Json) : Outcome Predicate :=
  match _h : j.get? "and" with
  | some parts => do
    return .all (← parts.elems.attach.mapM fun ⟨child, _hc⟩ => ofJson child)
  | none =>
    match _h' : j.get? "or" with
    | some parts => do
      return .any (← parts.elems.attach.mapM fun ⟨child, _hc⟩ => ofJson child)
    | none =>
      match _h'' : j.get? "not" with
      | some child => do return .not (← ofJson child)
      | none => do return .compare (← Correlation.ofJson j)
termination_by sizeOf j
decreasing_by
  · exact Nat.lt_of_le_of_lt (Json.sizeOf_le_of_mem_elems _hc) (Json.sizeOf_lt_of_get? _h)
  · exact Nat.lt_of_le_of_lt (Json.sizeOf_le_of_mem_elems _hc) (Json.sizeOf_lt_of_get? _h')
  · exact Json.sizeOf_lt_of_get? _h''

mutual

/-- Writes a predicate. -/
def toJson : Predicate → Json
  | compare correlation => correlation.toJson
  | all children => .record [("and", .arr (listToJson children))]
  | any children => .record [("or", .arr (listToJson children))]
  | not child => .record [("not", child.toJson)]

/-- Writes each predicate of a list. -/
def listToJson : List Predicate → List Json
  | [] => []
  | p :: rest => p.toJson :: listToJson rest

end

end Predicate

/-- A described subquery. -/
structure Subquery where
  /-- The output name. -/
  name : Bytes
  table : Bytes
  mode : SubqueryMode := .count
  predicate : Option Predicate := none
  conditions : List Correlation := []
  /-- A correlation in trusted SQL. -/
  filter : Option TrustedSql := none
deriving Repr

namespace Subquery

/-- Reads a subquery. -/
def ofJson (j : Json) : Outcome Subquery := do
  let name ← j.textAt "alias"
  let table ← j.textAt "table"
  let mode ← SubqueryMode.vocabulary.read (← j.textOr "mode" "count")
  let predicate ← match j.get? "where" with
    | none => pure none
    | some p => some <$> Predicate.ofJson p
  let conditions ← (← j.elemsOr "conditions").mapM Correlation.ofJson
  let filter ← match j.get? "filter" with
    | none => pure none
    | some f => do
      let sql ← f.asText
      pure (some (TrustedSql.mk sql))
  return { name, table, mode, predicate, conditions, filter }

/-- Writes a subquery. -/
def toJson (s : Subquery) : Json :=
  .recordOf
    [[("alias", .str s.name), ("table", .str s.table), ("mode", .str s.mode.name)],
      Json.member? "where" Predicate.toJson s.predicate,
      Json.memberIf (!s.conditions.isEmpty) "conditions" (.arr (s.conditions.map Correlation.toJson)),
      Json.member? "filter" (fun f => .str f.sql) s.filter]

end Subquery

end TableQuery

import TableQuery.Sql.Fragment
import TableQuery.Vocabulary

/-!
# Columns

A column of a table description: its name in requests and results, where it is read from, who may see
it and how its values are changed on the way in and out. An expression makes a column computed.
-/

namespace TableQuery

/-- The type of a column's values. -/
inductive ColumnType where
  | string
  | number
  | boolean
  | date
  | json
  | uuid
deriving Repr, DecidableEq, Inhabited

namespace ColumnType

/-- The name of a type. -/
def name : ColumnType → Bytes
  | string => "string"
  | number => "number"
  | boolean => "boolean"
  | date => "date"
  | json => "json"
  | uuid => "uuid"

/-- The names of the types, some of which have several. -/
def vocabulary : Vocabulary ColumnType where
  kind := "column type"
  words :=
    [("string", string), ("text", string), ("number", number), ("integer", number),
      ("numeric", number), ("boolean", boolean), ("bool", boolean), ("date", date),
      ("timestamp", date), ("datetime", date), ("json", json), ("jsonb", json), ("uuid", uuid)]

end ColumnType

/-- A described column. -/
structure Column where
  name : Bytes
  /-- The column of the database, perhaps with its table; empty for the column's own name. -/
  field : Bytes := []
  type : ColumnType := .string
  label : Bytes := []
  hidden : Bool := false
  sortable : Bool := true
  filterable : Bool := true
  computed : Bool := false
  /-- False promises that the value is never null. -/
  nullable : Bool := true
  /-- The expression of a computed column. -/
  expression : Option TrustedSql := none
  /-- The roles that may see the column; empty for everyone. -/
  visibleTo : List Bytes := []
  /-- The values on offer, handed through. -/
  options : List Json := []
  /-- Database functions applied to the column, innermost first. -/
  dbTransforms : List Bytes := []
  /-- Changes of the value in a response, in turn. -/
  valueTransforms : List Bytes := []
deriving Repr, Inhabited

namespace Column

/-- Where the column is read from. -/
def source (c : Column) : Bytes := if c.field.isEmpty then c.name else c.field

/-- Reads a column. -/
def ofJson (j : Json) : Outcome Column := do
  let name ← j.textAt "name"
  let field ← j.textOr "field" []
  let type ← ColumnType.vocabulary.read (← j.textOr "type" "string")
  let label ← j.textOr "label" []
  let hidden ← j.boolOr "hidden" false
  let sortable ← j.boolOr "sortable" true
  let filterable ← j.boolOr "filterable" true
  let computed ← j.boolOr "computed" false
  let nullable ← j.boolOr "nullable" true
  let expression ← match j.get? "expression" with
    | none => pure none
    | some e => do
      let sql ← e.asText
      pure (some (TrustedSql.mk sql))
  let visibleTo ← j.textListOr "visible_to"
  let options ← match j.get? "options" with
    | none => pure []
    | some o => o.asArray
  let dbTransforms ← j.textListOr "db_transform"
  let valueTransforms ← j.textListOr "js_transform"
  return {
    name, field, type, label, hidden, sortable, filterable
    computed := computed || expression.isSome
    nullable, expression, visibleTo, options, dbTransforms, valueTransforms }

/-- Writes a column; what has its usual value is left out. -/
def toJson (c : Column) : Json :=
  .recordOf
    [[("name", .str c.name), ("type", .str c.type.name), ("hidden", .bool c.hidden),
        ("sortable", .bool c.sortable), ("filterable", .bool c.filterable)],
      Json.memberIf (!c.field.isEmpty) "field" (.str c.field),
      Json.memberIf (!c.label.isEmpty) "label" (.str c.label),
      Json.memberIf c.computed "computed" (.bool true),
      Json.memberIf (!c.nullable) "nullable" (.bool false),
      Json.member? "expression" (fun e => .str e.sql) c.expression,
      Json.memberIf (!c.visibleTo.isEmpty) "visible_to" (.ofTexts c.visibleTo),
      Json.memberIf (!c.options.isEmpty) "options" (.arr c.options),
      Json.memberIf (!c.dbTransforms.isEmpty) "db_transform" (.ofTexts c.dbTransforms),
      Json.memberIf (!c.valueTransforms.isEmpty) "js_transform" (.ofTexts c.valueTransforms)]

end Column

end TableQuery

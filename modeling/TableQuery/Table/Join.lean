import TableQuery.Table.Column
import TableQuery.Text.Name

/-!
# Joins

The joined tables of a description form a forest: a join has columns and further joins, which hang on
it. The condition of a join is a pair of columns, or trusted SQL. A text of the form `a.b = c.d` is read
as a pair; any other text is trusted SQL.
-/

namespace TableQuery

/-- The type of a join. -/
inductive JoinType where
  | left
  | right
  | inner
  | full
deriving Repr, DecidableEq, Inhabited

namespace JoinType

/-- The name of a join type. -/
def name : JoinType → Bytes
  | left => "left"
  | right => "right"
  | inner => "inner"
  | full => "full"

/-- The names of the join types. -/
def vocabulary : Vocabulary JoinType where
  kind := "join type"
  words := [left, right, inner, full].map fun t => (t.name, t)

end JoinType

/-- The condition of a join. In a pair, a bare name on the left belongs to what is joined to, on the
right to the joined table. -/
inductive JoinCondition where
  | columns (left right : Bytes)
  | sql (trusted : TrustedSql)
deriving Repr, DecidableEq

/-- A joined table with the joins that hang on it. -/
inductive Join where
  | mk (table tableAlias : Bytes) (type : JoinType) (condition : JoinCondition) (columns : List Column)
      (joins : List Join)
deriving Repr

namespace Join

/-- The joined table. -/
def table : Join → Bytes
  | mk table .. => table

/-- Its name in the statement, empty for the table's own. -/
def tableAlias : Join → Bytes
  | mk _ tableAlias .. => tableAlias

/-- The type of the join. -/
def type : Join → JoinType
  | mk _ _ type .. => type

/-- The condition of the join. -/
def condition : Join → JoinCondition
  | mk _ _ _ condition .. => condition

/-- The columns read from the joined table. -/
def columns : Join → List Column
  | mk _ _ _ _ columns _ => columns

/-- The joins that hang on this one. -/
def joins : Join → List Join
  | mk _ _ _ _ _ joins => joins

/-- The name that qualifies the joined table's columns. -/
def qualifier (j : Join) : Bytes := if j.tableAlias.isEmpty then j.table else j.tableAlias

end Join

namespace JoinCondition

/-- Reads a text of the form `a.b = c.d`, blanks around the names allowed. -/
def ofText? (text : Bytes) : Option JoinCondition := do
  let (left, right) ← Bytes.cut Ascii.equals text
  let left := Bytes.trim Ascii.isSpace left
  let right := Bytes.trim Ascii.isSpace right
  if Name.isQualified left && Name.isQualified right then some (.columns left right) else none

/-- Reads the condition of a join. -/
def ofJson (j : Json) : Json.Reading JoinCondition := do
  match j.text? with
  | some text => return (ofText? text).getD (.sql ⟨text⟩)
  | none =>
    match j.get? "sql" with
    | some trusted => return .sql ⟨← trusted.asText⟩
    | none =>
      let left ← j.textAt "left"
      let right ← j.textAt "right"
      return .columns left right

/-- Writes the condition of a join. -/
def toJson : JoinCondition → Json
  | .columns left right => .record [("left", .str left), ("right", .str right)]
  | .sql trusted => .record [("sql", .str trusted.sql)]

end JoinCondition

namespace Join

/-- Reads a join with all that hangs on it. -/
def ofJson (j : Json) : Outcome Join := do
  let table ← j.textAt "table"
  let tableAlias ← j.textOr "alias" []
  let type ← JoinType.vocabulary.read (← j.textOr "type" "left")
  let condition ← JoinCondition.ofJson (← j.member "on")
  let columns ← match j.get? "columns" with
    | none => pure []
    | some columns => columns.elems.mapM Column.ofJson
  let joins ← match _h : j.get? "joins" with
    | none => pure []
    | some joins => joins.elems.attach.mapM fun ⟨child, _hc⟩ => ofJson child
  return mk table tableAlias type condition columns joins
termination_by sizeOf j
decreasing_by
  exact Nat.lt_of_le_of_lt (Json.sizeOf_le_of_mem_elems _hc) (Json.sizeOf_lt_of_get? _h)

mutual

/-- Writes a join with all that hangs on it. -/
def toJson : Join → Json
  | mk table tableAlias type condition columns joins =>
    .recordOf
      [[("table", .str table), ("type", .str type.name)],
        Json.memberIf (!tableAlias.isEmpty) "alias" (.str tableAlias),
        [("on", condition.toJson)],
        Json.memberIf (!columns.isEmpty) "columns" (.arr (columns.map Column.toJson)),
        Json.memberIf (!joins.isEmpty) "joins" (.arr (listToJson joins))]

/-- Writes each join of a list. -/
def listToJson : List Join → List Json
  | [] => []
  | j :: rest => j.toJson :: listToJson rest

end

end Join

end TableQuery

import TableQuery.Field.JoinPlan
import TableQuery.Statement.Correlation

/-!
# Fields

The fields of a description are all that a request may name, and `Resolver.resolve` is the only way from
a name to SQL. What it returns was built from the description; the bytes of the name that was looked up
never enter it.

A name is looked for among the columns of the base table, the columns of joins, the computed columns and
the subqueries, in that order. A column of a join gives way to one of the base table with the same name,
and is then still reached through its qualifier.
-/

namespace TableQuery

/-- Where a field's value comes from. -/
inductive FieldSource where
  | base
  | join
  | computed
  | subquery
deriving Repr, DecidableEq

/-- What a field may be used for. -/
inductive FieldUse where
  | select
  | filter
  | sort
  | search
deriving Repr, DecidableEq

namespace FieldSource

/-- The name of a source. -/
def name : FieldSource → Bytes
  | base => "base"
  | join => "join"
  | computed => "computed"
  | subquery => "subquery"

end FieldSource

namespace FieldUse

/-- Every use. -/
def all : List FieldUse := [select, filter, sort, search]

/-- The name of a use. -/
def name : FieldUse → Bytes
  | select => "select"
  | filter => "filter"
  | sort => "sort"
  | search => "search"

end FieldUse

/-- The part of a description that declares a field. -/
inductive FieldOrigin where
  | column (column : Column)
  | subquery (subquery : Subquery)
deriving Repr

/-- A name bound to the SQL that reads it. -/
structure Field where
  name : Bytes
  source : FieldSource
  /-- The expression in conditions and orders; empty for a subquery that fetches a row. -/
  expression : Fragment
  /-- The expression in a selection, with the database functions applied. -/
  selectExpression : Fragment
  type : ColumnType
  hidden : Bool := false
  sortable : Bool := true
  filterable : Bool := true
  /-- False for a subquery that fetches a row. -/
  scalar : Bool := true
  nullable : Bool := true
  /-- The table it is read through, empty for computed columns and subqueries. -/
  qualifier : Bytes := []
  origin : FieldOrigin
deriving Repr

namespace Field

/-- Whether a field may be used in a way. -/
def supports (f : Field) : FieldUse → Bool
  | .select => !f.hidden
  | .filter => f.filterable && f.scalar
  | .sort => f.sortable && f.scalar
  | .search => f.scalar

/-- Whether a field is a column that is read from a table. -/
def isTableColumn (f : Field) : Bool :=
  match f.origin with
  | .column c => !c.computed
  | .subquery _ => false

/-- A column's expression inside its database functions. -/
def applyTransforms (names : List Bytes) (expression : Fragment) : Fragment :=
  names.foldl (fun e name => ((Fragment.text (name ++ [Ascii.leftParen])) ++ e).add ")") expression

/-- The field of a computed column. -/
def ofComputed (c : Column) : Field :=
  let expression := match c.expression with
    | some trusted => Fragment.trusted trusted
    | none => Fragment.text "NULL"
  { name := c.name, source := .computed, expression
    selectExpression := applyTransforms c.dbTransforms expression
    type := c.type, hidden := c.hidden, sortable := c.sortable, filterable := c.filterable
    nullable := c.nullable, origin := .column c }

/-- The field of a column that is read from a table. A dotted source names its own table; one of the
names of the base table makes it a field of the base. -/
def ofTableColumn (d : Dialect) (baseNames : List Bytes) (table : Bytes) (c : Column) : Field :=
  let (qualifier, dotted) := match Bytes.cut Ascii.dot c.source with
    | some (qualifier, _) => (qualifier, c.source)
    | none => (table, table ++ Ascii.dot :: c.source)
  let expression := Fragment.identifier d dotted
  { name := c.name, source := if baseNames.contains qualifier then .base else .join, expression
    selectExpression := applyTransforms c.dbTransforms expression
    type := c.type, hidden := c.hidden, sortable := c.sortable, filterable := c.filterable
    nullable := c.nullable, qualifier, origin := .column c }

/-- The field of a column, read from a table unless it is computed. -/
def ofColumn (d : Dialect) (baseNames : List Bytes) (table : Bytes) (c : Column) : Field :=
  if c.computed then ofComputed c else ofTableColumn d baseNames table c

/-- The field of a subquery. One that fetches a row is built where it is selected, so that a dialect
without row packing is refused there only. -/
def ofSubquery (d : Dialect) (s : Subquery) : Checked Field := do
  match s.mode with
  | .first =>
    return { name := s.name, source := .subquery, expression := .empty, selectExpression := .empty
             type := .json, sortable := false, filterable := false, scalar := false
             origin := .subquery s }
  | mode =>
    let expression ← s.toSql d
    return { name := s.name, source := .subquery, expression, selectExpression := expression
             type := if mode = .exists then .boolean else .number
             nullable := false, origin := .subquery s }

end Field

/-- The fields of a description for one dialect. -/
structure Resolver where
  table : Table
  dialect : Dialect
  /-- The name that qualifies the base table's columns. -/
  baseQualifier : Bytes
  joins : JoinPlan
  /-- The description's own columns, computed ones included. -/
  declared : List Field
  /-- The columns of joins that no column of the base table shadows. -/
  joined : List Field
  /-- The columns of joins that one shadows. -/
  shadowed : List Field
  subqueries : List Field
deriving Repr

namespace Resolver

/-! ## Building -/

/-- The fault of a column name that is declared twice. -/
def columnTwice (t : Table) (name : Bytes) : Fault :=
  .config (Bytes.ofString "Column '" ++ name ++ "' is declared more than once")
    (.record [("column", .str name), ("table", .str t.name)])

/-- The fault of a subquery name that is declared twice. -/
def subqueryTwice (t : Table) (name : Bytes) : Fault :=
  .config (Bytes.ofString "Subquery alias '" ++ name ++ "' is declared more than once")
    (.record [("alias", .str name), ("table", .str t.name)])

/-- Adds a field whose name is new. -/
def addField (twice : Bytes → Fault) (fields : List Field) (field : Field) : Checked (List Field) :=
  if fields.any fun f => f.name == field.name then .error (twice field.name)
  else .ok (fields ++ [field])

/-- Adds the field of a subquery. -/
def addSubquery (t : Table) (d : Dialect) (fields : List Field) (s : Subquery) :
    Checked (List Field) := do
  if fields.any fun f => f.name == s.name then .error (subqueryTwice t s.name)
  else return fields ++ [← Field.ofSubquery d s]

/-- The fields of a description whose base columns are qualified by another name than the base table's
own; the empty name stands for the table's own. -/
def ofTableAs (qualifier : Bytes) (t : Table) (d : Dialect) : Checked Resolver := do
  let baseQualifier := if qualifier.isEmpty then t.base else qualifier
  let baseNames := [baseQualifier, t.base]
  let joins ← JoinPlan.ofTable t d
  let declared ← (t.columns.map (Field.ofColumn d baseNames baseQualifier)).foldlM
    (addField (columnTwice t)) []
  let isShadowed (f : Field) : Bool :=
    declared.any fun g => g.source != .computed && g.name == f.name
  let exposed := joins.columns.map fun c => Field.ofColumn d baseNames c.qualifier c.column
  let subqueries ← t.subqueries.foldlM (addSubquery t d) []
  return {
    table := t, dialect := d, baseQualifier, joins, declared
    joined := exposed.filter fun f => !isShadowed f
    shadowed := exposed.filter isShadowed
    subqueries }

/-- The fields of a description. -/
def ofTable (t : Table) (d : Dialect) : Checked Resolver := ofTableAs [] t d

/-- The exposed fields: the description's own columns, the joins', the subqueries. -/
def fields (r : Resolver) : List Field := r.declared ++ r.joined ++ r.subqueries

/-! ## Looking up -/

/-- The first field of a name. -/
def find? (name : Bytes) (fields : List Field) : Option Field := fields.find? fun f => f.name == name

/-- The description's own columns that are read from a table. -/
def baseFields (r : Resolver) : List Field := r.declared.filter fun f => f.source != .computed

/-- The description's own computed columns. -/
def computedFields (r : Resolver) : List Field := r.declared.filter fun f => f.source == .computed

/-- The field of exactly this name. -/
def resolvePlain (r : Resolver) (name : Bytes) : Option Field :=
  (find? name r.baseFields).or <| (find? name r.joined).or <|
    (find? name r.computedFields).or (find? name r.subqueries)

/-- The field of a column of a qualified table. The base table's own name reaches its columns even
where another name qualifies them. -/
def resolveQualified (r : Resolver) (qualifier column : Bytes) : Option Field :=
  let isMeant (f : Field) : Bool := f.isTableColumn && f.qualifier == qualifier && f.name == column
  (r.fields.find? isMeant).or <| (r.shadowed.find? isMeant).or <|
    if qualifier == r.table.base && r.baseQualifier != r.table.base then find? column r.baseFields
    else none

/-- The field of a name, plain or with a qualifier before the first dot. -/
def resolve (r : Resolver) (name : Bytes) : Option Field :=
  (r.resolvePlain name).or <|
    (Bytes.cut Ascii.dot name).bind fun (qualifier, column) => r.resolveQualified qualifier column

/-- The field of a name for a use; a field that does not allow the use is a fault, an unknown name is
none. -/
def resolveFor (r : Resolver) (name : Bytes) (use : FieldUse) : Checked (Option Field) :=
  match r.resolve name with
  | none => .ok none
  | some f =>
    if f.supports use then .ok (some f)
    else
      .error (.field f.name (Bytes.ofString "Field '" ++ f.name ++ "' does not allow " ++ use.name))

/-- The field that a part of the description refers to. -/
def require (r : Resolver) (name purpose : Bytes) : Checked Field :=
  match r.resolve name with
  | some f => .ok f
  | none =>
    .error (.config (purpose ++ " references unknown field '" ++ name ++ "'")
      (.record [("field", .str name), ("table", .str r.table.name)]))

end Resolver

end TableQuery

import TableQuery.Json.Print
import TableQuery.Number.Numeral
import TableQuery.Sql.Operator
import TableQuery.Table.Column
import TableQuery.Text.Shape

/-!
# Request values

Values of a request are checked against the type of the column they are compared with, and normalized:
a number may come as text, a truth value as 0 or 1, and anything but null as the text of a string
column. What is refused is refused with the shape that was expected.

`Limits.checkValue` gives each operator the shape of value it needs, so that `Operator.apply` accepts
what comes out.
-/

namespace TableQuery

/-- How long request values may be. -/
structure Limits where
  stringLength : Nat := 1024
  arrayLength : Nat := 500
  searchLength : Nat := 256
deriving Repr, DecidableEq

/-! ## Scalars -/

/-- The number that a text denotes: an integer, held within 64 bits, when it is written as one, and a
double otherwise. -/
def numberOfText? (s : Bytes) : Option Json :=
  if (s.head?.map Ascii.isSpace).getD true then none
  else do
    let x ← Numeral.double? s
    let pointed := s.any fun b => b == Ascii.dot || b == 0x65 || b == 0x45
    match if pointed then none else Numeral.integer? s with
    | some n => some (.int (Int64.ofIntClamp n).toInt)
    | none => some (.float x)

/-- The truth value that a value stands for. -/
def truthOf? : Json → Option Bool
  | .bool b => some b
  | .int n => if n = 1 then some true else if n = 0 then some false else none
  | .str s =>
    if s = Bytes.ofString "true" ∨ s = Bytes.ofString "1" then some true
    else if s = Bytes.ofString "false" ∨ s = Bytes.ofString "0" then some false
    else none
  | _ => none

namespace Limits

/-- A value as text, for a string column. -/
def checkText (limits : Limits) (value : Json) : Except Bytes Json :=
  let text := match value with
    | .str s => s
    | j => j.compact
  if limits.stringLength < text.length then
    .error (Bytes.ofString "string of at most " ++ Bytes.ofNat limits.stringLength ++ " characters")
  else .ok (.str text)

/-- A value that is neither null nor nested, normalized for a column type. -/
def checkPlain (limits : Limits) (type : ColumnType) (value : Json) : Except Bytes Json :=
  match type, value with
  | .string, value => limits.checkText value
  | .number, .int n => .ok (.int n)
  | .number, .float x => .ok (.float x)
  | .number, .str s =>
    match numberOfText? s with
    | some n => .ok n
    | none => .error "number"
  | .number, _ => .error "number"
  | .boolean, value =>
    match truthOf? value with
    | some b => .ok (.bool b)
    | none => .error "boolean"
  | .date, .str s => if Shape.isDate s then .ok (.str s) else .error "ISO-8601 date"
  | .date, _ => .error "ISO-8601 date"
  | .uuid, .str s => if Shape.isUuid s then .ok (.str s) else .error "uuid"
  | .uuid, _ => .error "uuid"
  | .json, value => .ok value

/-- A single value, normalized for a column type, or what was expected in its place. -/
def checkScalar (limits : Limits) (type : ColumnType) (value : Json) : Except Bytes Json :=
  match value with
  | .null => .error type.name
  | .arr _ | .obj _ => if type = .json then .ok value else .error type.name
  | value => limits.checkPlain type value

/-! ## Values of operators -/

/-- The fault of a value that does not fit its column. -/
def invalidValue (field expected : Bytes) : Fault :=
  .validation field (Bytes.ofString "Invalid value for field '" ++ field ++ "'") expected

/-- A single value of a column. -/
def checkElement (limits : Limits) (field : Bytes) (type : ColumnType) (value : Json) : Checked Json :=
  (limits.checkScalar type value).mapError (invalidValue field)

/-- The values of a list operator. -/
def checkArray (limits : Limits) (field : Bytes) (type : ColumnType) (op : Operator) (value : Json) :
    Checked Json := do
  let values ← op.requireArray field value
  if op = .between ∧ values.length ≠ 2 then .error (Operator.rangeFault field)
  else if limits.arrayLength < values.length then
    .error (.validation field (Bytes.ofString "Too many values for '" ++ op.name ++ "'")
      (Bytes.ofString "array of at most " ++ Bytes.ofNat limits.arrayLength ++ " values"))
  else return .arr (← values.mapM (limits.checkElement field type))

/-- The value of a filter on a column of a type, normalized for an operator. -/
def checkValue (limits : Limits) (field : Bytes) (type : ColumnType) (op : Operator) (value : Json) :
    Checked Json :=
  match op with
  | .isNull | .isNotNull => .ok .null
  | .isIn | .notIn | .between => limits.checkArray field type op value
  | .like | .ilike | .contains | .startsWith | .endsWith =>
    (limits.checkScalar .string value).mapError (op.valueFault field "a string value")
  | .eq | .neq => if value.isNull then .ok .null else limits.checkElement field type value
  | .gt | .gte | .lt | .lte =>
    if value.isNull then .error (op.valueFault field "a value" type.name)
    else limits.checkElement field type value

/-! ## Other texts -/

/-- A search term without blanks around it. -/
def checkSearchTerm (limits : Limits) (term : Bytes) : Checked Bytes :=
  let trimmed := Bytes.trim Ascii.isSpace term
  if limits.searchLength < trimmed.length then
    .error (.validation "search" "Search term is too long"
      (Bytes.ofString "at most " ++ Bytes.ofNat limits.searchLength ++ " characters"))
  else .ok trimmed

end Limits

/-- A text without control characters, cut to a length, for a log. -/
def sanitizeForLog (limit : Nat) (s : Bytes) : Bytes :=
  (s.filter fun b => !Ascii.isControl b).take limit

end TableQuery

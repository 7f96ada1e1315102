import TableQuery.Sql.Fragment
import TableQuery.Vocabulary

/-!
# Operators

The operators of a filter, which compare a column with a request's value, and the comparisons between
two expressions. `Operator.apply` binds every value; none enters the text. A pattern made from a value
escapes the wildcards in it with `!`, so the value matches literally.

An empty list of values decides a filter outright: nothing is in it, everything is outside it.
-/

namespace TableQuery

/-- How a filter compares a column with a value. -/
inductive Operator where
  | eq | neq | gt | gte | lt | lte
  | like | ilike
  | isIn | notIn | between
  | isNull | isNotNull
  | contains | startsWith | endsWith
deriving Repr, DecidableEq, Inhabited

/-- How two expressions are compared. -/
inductive Comparison where
  | eq | neq | gt | gte | lt | lte
  | like | ilike
deriving Repr, DecidableEq, Inhabited

namespace Operator

/-- Every operator. -/
def all : List Operator :=
  [.eq, .neq, .gt, .gte, .lt, .lte, .like, .ilike, .isIn, .notIn, .between, .isNull, .isNotNull,
    .contains, .startsWith, .endsWith]

/-- The name of an operator. -/
def name : Operator → Bytes
  | eq => "eq"
  | neq => "neq"
  | gt => "gt"
  | gte => "gte"
  | lt => "lt"
  | lte => "lte"
  | like => "like"
  | ilike => "ilike"
  | isIn => "in"
  | notIn => "notIn"
  | between => "between"
  | isNull => "isNull"
  | isNotNull => "isNotNull"
  | contains => "contains"
  | startsWith => "startsWith"
  | endsWith => "endsWith"

/-- The operator of a name; capitals count. -/
def ofName? (name : Bytes) : Option Operator := all.find? fun op => op.name == name

/-- The operator of a name in a description. -/
def ofName (name : Bytes) : Checked Operator :=
  match ofName? name with
  | some op => .ok op
  | none => .error (.unknownName "operator" name)

/-- Whether the operator takes a list of values. -/
def takesArray : Operator → Bool
  | isIn | notIn | between => true
  | _ => false

/-- Whether the operator matches a pattern. -/
def matchesPattern : Operator → Bool
  | like | ilike | contains | startsWith | endsWith => true
  | _ => false

end Operator

namespace Comparison

/-- The name of a comparison. -/
def name : Comparison → Bytes
  | eq => "eq"
  | neq => "neq"
  | gt => "gt"
  | gte => "gte"
  | lt => "lt"
  | lte => "lte"
  | like => "like"
  | ilike => "ilike"

/-- The names of the comparisons. -/
def vocabulary : Vocabulary Comparison where
  kind := "comparison operator"
  words := [eq, neq, gt, gte, lt, lte, like, ilike].map fun c => (c.name, c)

/-- The comparison of two expressions. A dialect without `ILIKE` compares the small letters of both. -/
def apply (c : Comparison) (left right : Fragment) (d : Dialect) : Fragment :=
  let infixed (op : Bytes) : Fragment := ((left.add " ").add op).add " " ++ right
  match c with
  | eq => infixed "="
  | neq => infixed "<>"
  | gt => infixed ">"
  | gte => infixed ">="
  | lt => infixed "<"
  | lte => infixed "<="
  | like => infixed "LIKE"
  | ilike =>
    match d with
    | .postgresql => infixed "ILIKE"
    | _ => ((Fragment.text "LOWER(" ++ left).add ") LIKE LOWER(" ++ right).add ")"

end Comparison

/-! ## Patterns -/

namespace Pattern

/-- The byte that escapes a wildcard. -/
def escapeMark : UInt8 := Ascii.bang

/-- Whether a byte means more than itself in a pattern. -/
def isSpecial (b : UInt8) : Bool := b == Ascii.percent || b == Ascii.underscore || b == escapeMark

/-- The pattern that matches a text literally. -/
def escape (s : Bytes) : Bytes := s.flatMap fun b => if isSpecial b then [escapeMark, b] else [b]

/-- A match of a column with a bound pattern, in any case. -/
def condition (column : Fragment) (d : Dialect) (pattern : Bytes) : Fragment :=
  ((((column.add " ").add d.anyCaseLike).add " ").bind (.str pattern)).add " ESCAPE '!'"

end Pattern

namespace Operator

/-! ## Conditions -/

/-- A column, an operator and a bound value. -/
def binary (column : Fragment) (op : Bytes) (value : Json) : Fragment :=
  (((column.add " ").add op).add " ").bind value

/-- A column, a keyword and a list of bound values. -/
def valueList (column : Fragment) (keyword : Bytes) (values : List Json) : Fragment :=
  ((((column.add " ").add keyword).add " (") ++ Fragment.join ", " (values.map Fragment.value)).add ")"

/-- The fault of an operator whose value has the wrong shape. -/
def valueFault (op : Operator) (field wanted expected : Bytes) : Fault :=
  .validation field (Bytes.ofString "Operator '" ++ op.name ++ "' requires " ++ wanted) expected

/-- The fault of a range that is not given by two ends. -/
def rangeFault (field : Bytes) : Fault :=
  .validation field "Operator 'between' requires exactly two values" "array[2]"

/-- The text that a pattern operator needs. -/
def requireText (op : Operator) (field : Bytes) : Json → Checked Bytes
  | .str s => .ok s
  | _ => .error (op.valueFault field "a string value" "string")

/-- The values that a list operator needs. -/
def requireArray (op : Operator) (field : Bytes) : Json → Checked (List Json)
  | .arr values => .ok values
  | _ => .error (op.valueFault field "an array value" "array")

/-- The condition that an operator puts on a column; `field` names the column in faults. -/
def apply (op : Operator) (column : Fragment) (value : Json) (d : Dialect) (field : Bytes) :
    Checked Fragment :=
  match op with
  | eq => .ok (if value.isNull then column.add " IS NULL" else binary column "=" value)
  | neq => .ok (if value.isNull then column.add " IS NOT NULL" else binary column "<>" value)
  | gt => .ok (binary column ">" value)
  | gte => .ok (binary column ">=" value)
  | lt => .ok (binary column "<" value)
  | lte => .ok (binary column "<=" value)
  | like => .ok (binary column "LIKE" value)
  | ilike => do
    d.require .ilike
    return binary column "ILIKE" value
  | isIn => do
    let values ← op.requireArray field value
    return if values.isEmpty then .alwaysFalse else valueList column "IN" values
  | notIn => do
    let values ← op.requireArray field value
    return if values.isEmpty then .alwaysTrue else valueList column "NOT IN" values
  | between => do
    match ← op.requireArray field value with
    | [low, high] => return (((column.add " BETWEEN ").bind low).add " AND ").bind high
    | _ => .error (rangeFault field)
  | isNull => .ok (column.add " IS NULL")
  | isNotNull => .ok (column.add " IS NOT NULL")
  | contains => do
    let text ← op.requireText field value
    return Pattern.condition column d (Ascii.percent :: (Pattern.escape text ++ [Ascii.percent]))
  | startsWith => do
    let text ← op.requireText field value
    return Pattern.condition column d (Pattern.escape text ++ [Ascii.percent])
  | endsWith => do
    let text ← op.requireText field value
    return Pattern.condition column d (Ascii.percent :: Pattern.escape text)

end Operator

end TableQuery

import TableQuery.Sql.Operator

/-!
# Filters

A condition compares a field with a value by an operator; a filter tree combines conditions with `and`
and `or` to any depth. Trees come from descriptions and from requests. Both are read the same way, but
a fault of a description is a configuration fault and one of a request a validation fault.
-/

namespace TableQuery

/-- A connective of a filter tree. -/
inductive LogicalOp where
  | and
  | or
deriving Repr, DecidableEq, Inhabited

namespace LogicalOp

/-- The name of a connective. -/
def name : LogicalOp → Bytes
  | .and => "and"
  | .or => "or"

/-- The names of the connectives. -/
def vocabulary : Vocabulary LogicalOp where
  kind := "logical operator"
  words := [LogicalOp.and, LogicalOp.or].map fun op => (op.name, op)

end LogicalOp

/-- A field compared with a value. -/
structure Condition where
  field : Bytes
  op : Operator := .eq
  value : Json := .null
deriving Repr, Inhabited

/-- Who wrote a filter. -/
inductive Author where
  /-- The author of the description. -/
  | description
  /-- The sender of a request. -/
  | request
deriving Repr, DecidableEq

namespace Author

/-- The fault of an operator that there is not. -/
def unknownOperator (author : Author) (field op : Bytes) : Fault :=
  match author with
  | description => .unknownName "operator" op
  | request => .validation field (Bytes.ofString "Unknown operator '" ++ op ++ "'") "operator"

/-- The fault of a tree that is no object. -/
def notAnObject (author : Author) (j : Json) : Fault :=
  match author with
  | description => .config "Filter expression must be an object" (.record [("expression", j)])
  | request => .validation "filter_groups" "Filter expression must be an object" "object"

end Author

namespace Condition

/-- Reads a condition. -/
def ofJson (author : Author) (j : Json) : Outcome Condition := do
  let field ← j.textAt "field"
  let word ← match j.get? "op" with
    | some op => op.asText
    | none => j.textOr "operator" "eq"
  match Operator.ofName? word with
  | none => (author.unknownOperator field word).raise
  | some op => return { field, op, value := ← j.getOr "value" .null }

/-- Writes a condition. -/
def toJson (c : Condition) : Json :=
  .record [("field", .str c.field), ("op", .str c.op.name), ("value", c.value)]

end Condition

/-- Conditions combined with `and` and `or`. -/
inductive FilterTree where
  | leaf (condition : Condition)
  | group (op : LogicalOp) (children : List FilterTree)
deriving Repr

namespace FilterTree

/-- Reads a tree. An object with an `and` or an `or` is a group, any other a condition. -/
def ofJson (author : Author) (j : Json) : Outcome FilterTree :=
  if !j.isObj then (author.notAnObject j).raise
  else match _h : j.get? "and" with
    | some parts => do
      return .group .and (← parts.elems.attach.mapM fun ⟨child, _hc⟩ => ofJson author child)
    | none =>
      match _h' : j.get? "or" with
      | some parts => do
        return .group .or (← parts.elems.attach.mapM fun ⟨child, _hc⟩ => ofJson author child)
      | none => do return .leaf (← Condition.ofJson author j)
termination_by sizeOf j
decreasing_by
  · exact Nat.lt_of_le_of_lt (Json.sizeOf_le_of_mem_elems _hc) (Json.sizeOf_lt_of_get? _h)
  · exact Nat.lt_of_le_of_lt (Json.sizeOf_le_of_mem_elems _hc) (Json.sizeOf_lt_of_get? _h')

mutual

/-- Writes a tree. -/
def toJson : FilterTree → Json
  | leaf condition => condition.toJson
  | group op children => .record [(op.name, .arr (listToJson children))]

/-- Writes each tree of a list. -/
def listToJson : List FilterTree → List Json
  | [] => []
  | t :: rest => t.toJson :: listToJson rest

end

end FilterTree

/-- Whether a configured filter always applies or waits for a request's value. -/
inductive FilterKind where
  | static
  | dynamic
deriving Repr, DecidableEq, Inhabited

namespace FilterKind

/-- The name of a kind. -/
def name : FilterKind → Bytes
  | static => "static"
  | dynamic => "dynamic"

/-- The names of the kinds. -/
def vocabulary : Vocabulary FilterKind where
  kind := "filter kind"
  words := [static, dynamic].map fun k => (k.name, k)

end FilterKind

/-- A filter of a description. -/
structure ConfiguredFilter where
  condition : Condition
  label : Bytes := []
  kind : FilterKind := .dynamic
deriving Repr, Inhabited

namespace ConfiguredFilter

/-- Reads a filter; one that gives a value is static unless it says otherwise. -/
def ofJson (j : Json) : Outcome ConfiguredFilter := do
  let condition ← Condition.ofJson .description j
  let label ← j.textOr "label" []
  let usual : FilterKind := if j.has "value" then .static else .dynamic
  let kind ← FilterKind.vocabulary.read (← j.textOr "type" usual.name)
  return { condition, label, kind }

/-- Writes a filter. -/
def toJson (f : ConfiguredFilter) : Json :=
  .recordOf
    [[("field", .str f.condition.field), ("op", .str f.condition.op.name), ("type", .str f.kind.name)],
      Json.memberIf (!f.condition.value.isNull) "value" f.condition.value,
      Json.memberIf (!f.label.isEmpty) "label" (.str f.label)]

end ConfiguredFilter

end TableQuery

import TableQuery.Table.Section

/-!
# Request parameters

What a caller may ask for: filters, filter trees, a search term, an order, a page or a cursor, and the
fields to select. Parameters hold values only, never SQL. Several short forms are read: a filter may be
a bare value or an object with one operator, and an order or a selection may be a text with commas.
-/

namespace TableQuery

/-- The operator and value of a filter. -/
structure FilterParam where
  op : Operator := .eq
  value : Json
deriving Repr, Inhabited

/-- The parameters of one request. -/
structure Params where
  /-- Filters by field, in the order in which they apply. -/
  filters : List (Bytes × FilterParam) := []
  filterGroups : List FilterTree := []
  search : Option Bytes := none
  sort : List SortKey := []
  page : Option Int64 := none
  pageSize : Option Int64 := none
  cursor : Option Bytes := none
  select : List Bytes := []
  includeDeleted : Bool := false
deriving Repr

namespace FilterParam

/-- The only member of an object whose key names an operator. -/
def keyed? : Json → Option FilterParam
  | .obj [(key, value)] => (Operator.ofName? key).map fun op => { op, value }
  | _ => none

/-- Reads the filter of a field: an object with an operator, an object whose only key is an operator,
or a value to equal. -/
def ofJson (field : Bytes) (j : Json) : Outcome FilterParam :=
  match (j.get? "op").or (j.get? "operator") with
  | some word => do
    let word ← word.asText
    match Operator.ofName? word with
    | none => (Author.request.unknownOperator field word).raise
    | some op => return { op, value := ← j.getOr "value" .null }
  | none => .ok ((keyed? j).getD { value := j })

/-- Writes the filter of a field. -/
def toJson (f : FilterParam) : Json := .record [("op", .str f.op.name), ("value", f.value)]

end FilterParam

namespace Params

/-! ## Reading -/

/-- The pieces of a text between commas that have any bytes. -/
def commaList (text : Bytes) : List Bytes :=
  (Bytes.splitOn Ascii.comma text).filter fun piece => !piece.isEmpty

/-- Reads one key of an order. -/
def sortKey (j : Json) : Outcome SortKey := do
  match j with
  | .str text => return SortKey.ofSigned text
  | _ =>
    let key := SortKey.ofSigned (← j.textAt "field")
    match j.get? "direction" with
    | none => return key
    | some direction =>
      let word ← direction.asText
      match SortDirection.vocabulary.find? word with
      | some direction => return { key with direction }
      | none =>
        (Fault.validation key.field (Bytes.ofString "Invalid sort direction '" ++ word ++ "'")
          "asc|desc").raise

/-- Reads an order. -/
def sortKeys : Json → Outcome (List SortKey)
  | .str text => .ok ((commaList text).map SortKey.ofSigned)
  | j => j.elems.mapM sortKey

/-- Reads a selection. -/
def selection : Json → Json.Reading (List Bytes)
  | .str text => .ok (commaList text)
  | j => j.asTexts

/-- Reads an integer that may be absent or null. -/
def integer? (j : Json) (key : Bytes) : Json.Reading (Option Int64) :=
  match j.get? key with
  | none | some .null => .ok none
  | some n => some <$> n.asInt64

/-- A text under a key; a value of another kind counts as absent. -/
def looseText? (j : Json) (key : Bytes) : Option Bytes := (j.get? key).bind Json.text?

/-- Reads parameters part by part. -/
def read (j : Json) : Outcome Params := do
  let filters ← match j.get? "filters" with
    | none => pure []
    | some filters => filters.items.mapM fun (field, f) => do
      let param ← FilterParam.ofJson field f
      pure (field, param)
  let filterGroups ← (← j.elemsOr "filter_groups").mapM (FilterTree.ofJson .request)
  let search := looseText? j "search"
  let sort ← match j.get? "sort" with
    | none => pure []
    | some order => sortKeys order
  let page ← integer? j "page"
  let pageSize ← integer? j (if j.has "page_size" then "page_size" else "pageSize")
  let cursor := looseText? j "cursor"
  let select ← match j.get? "select" with
    | none => pure []
    | some fields => selection fields
  let includeDeleted ← j.boolOr "include_deleted" false
  return { filters, filterGroups, search, sort, page, pageSize, cursor, select, includeDeleted }

/-- The fault of parameters with a value of the wrong kind. -/
def malformed (reason : Bytes) : Fault :=
  .validation "params" (Bytes.ofString "Malformed request parameters: " ++ reason) []

/-- Reads parameters. -/
def ofJson (j : Json) : Checked Params := (read j).wordMismatch malformed

/-! ## Writing -/

/-- Writes parameters; what was not asked for is left out. -/
def toJson (p : Params) : Json :=
  .recordOf
    [Json.memberIf (!p.filters.isEmpty) "filters"
        (.record (p.filters.map fun (field, f) => (field, f.toJson))),
      Json.memberIf (!p.filterGroups.isEmpty) "filter_groups"
        (.arr (p.filterGroups.map FilterTree.toJson)),
      Json.member? "search" .str p.search,
      Json.memberIf (!p.sort.isEmpty) "sort" (.arr (p.sort.map SortKey.toJson)),
      Json.member? "page" .ofInt64 p.page,
      Json.member? "page_size" .ofInt64 p.pageSize,
      Json.member? "cursor" .str p.cursor,
      Json.memberIf (!p.select.isEmpty) "select" (.ofTexts p.select),
      Json.memberIf p.includeDeleted "include_deleted" (.bool true)]

end Params

end TableQuery

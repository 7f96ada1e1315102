import TableQuery.Request.Cursor
import TableQuery.Statement.Sorting
import TableQuery.Statement.Window

/-!
# Pages by cursor

A page by cursor goes on after a boundary row. For an order by `k₁ … kₙ` and the boundary's values
`v₁ … vₙ` the continuation is the lexicographic expansion

  `k₁ after v₁` or `k₁ = v₁` and `k₂ after v₂` or … or `k₁ = v₁` and … and `kₙ after vₙ`

with `after` as `>` or `<` by the direction. Nulls stand where the dialect puts them: where they come
first, what follows a null is every value; where they come last, nothing follows a null, and a null
follows every value.

The key of the description that identifies a row ends the order, so no two rows agree on all terms. One
row more than the page holds is fetched to see whether there is another page. The boundary's values are
selected under names of their own.
-/

namespace TableQuery

/-- The order, continuation and size of a page by cursor. -/
structure Keyset where
  order : List OrderTerm := []
  /-- Empty on the first page. -/
  continuation : Fragment := .empty
  pageSize : Int64 := 10
  fetchLimit : Int64 := 11
deriving Repr

namespace Keyset

/-! ## The order -/

/-- Drops the terms whose field an earlier term has. -/
def dedupe (terms : List OrderTerm) : List OrderTerm :=
  terms.foldl (fun kept t => if kept.any fun k => k.field == t.field then kept else kept ++ [t]) []

/-- Marks the first term of a field as never null. -/
def markPresent (field : Bytes) : List OrderTerm → List OrderTerm
  | [] => []
  | t :: rest =>
    if t.field == field then { t with nullable := false } :: rest else t :: markPresent field rest

/-- Ends an order with a field that identifies rows, in the direction of the last term. -/
def endWith (key : Field) (terms : List OrderTerm) : List OrderTerm :=
  if terms.any fun t => t.field == key.name then markPresent key.name terms
  else
    let direction := (terms.getLast?.map OrderTerm.direction).getD .asc
    terms ++ [{ field := key.name, expression := key.expression, direction, nullable := false }]

/-- The field that identifies rows, if it can be sorted by and shown. -/
def usableKey? (r : Resolver) (key : Bytes) : Option Field :=
  (r.resolve key).filter fun f => !f.hidden && f.supports .sort

/-- The order of pages by cursor. -/
def activeOrder (r : Resolver) (requested : List SortKey) : Checked (List OrderTerm) := do
  let terms := dedupe (← r.strictOrder requested)
  let key := r.table.pagination.cursorKey
  if key.isEmpty then return terms
  else match usableKey? r key with
    | some f => return endWith f terms
    | none =>
      if terms.isEmpty then
        .error (.field key
          (Bytes.ofString "Cursor pagination needs a sortable key; '" ++ key ++ "' is not usable"))
      else return terms

/-! ## The continuation -/

/-- A term of the order with the boundary's value of its field. -/
structure Key where
  term : OrderTerm
  value : Json
deriving Repr

namespace Key

/-- The condition that a row agrees with the boundary on this key. -/
def equal (k : Key) : Fragment :=
  if k.value.isNull then k.term.expression.add " IS NULL"
  else Operator.binary k.term.expression "=" k.value

/-- The condition that a row comes after the boundary on this key; none if no row can. -/
def after? (d : Dialect) (k : Key) : Option Fragment :=
  let descending := k.term.direction == .desc
  let nullsFirst := d.nullsFirst descending
  if k.value.isNull then
    if nullsFirst then some (k.term.expression.add " IS NOT NULL") else none
  else
    let beyond := Operator.binary k.term.expression (if descending then "<" else ">") k.value
    if k.term.nullable && !nullsFirst then
      some (Fragment.any [beyond, k.term.expression.add " IS NULL"])
    else some beyond

end Key

/-- The branches of the expansion, each under the equalities of the keys before it. -/
def branches (d : Dialect) (equalities : List Fragment) : List Key → List Fragment
  | [] => []
  | k :: rest =>
    let more := branches d (equalities ++ [k.equal]) rest
    match k.after? d with
    | none => more
    | some after => Fragment.all (equalities ++ [after]) :: more

/-- The keys of an order that a boundary has values for. -/
def keysOf (order : List OrderTerm) (boundary : Json) : List Key :=
  order.filterMap fun term => (boundary.get? term.field).map fun value => { term, value }

/-- The condition that a row comes after a boundary; empty if the boundary has none of the keys. -/
def continuationAfter (d : Dialect) (order : List OrderTerm) (boundary : Json) : Fragment :=
  let keys := keysOf order boundary
  if keys.isEmpty then .empty
  else match branches d [] keys with
    | [] => .alwaysFalse
    | parts => Fragment.any parts

/-! ## Pages -/

/-- The name under which a boundary's value is selected. -/
def boundaryName (field : Bytes) : Bytes := Bytes.ofString "__cursor_" ++ field

/-- The fault of a token that carries no boundary. -/
def malformedToken : Fault := .validation "cursor" "Malformed cursor token" "cursor token"

/-- The page after a token in an order, an empty token asking for the first one. -/
def ofToken (d : Dialect) (order : List OrderTerm) (pageSize : Int64) (token : Bytes) : Checked Keyset := do
  let continuation ←
    if token.isEmpty then pure Fragment.empty
    else match Cursor.decode token with
      | some boundary => pure (continuationAfter d order boundary)
      | none => .error malformedToken
  return { order, continuation, pageSize, fetchLimit := pageSize + 1 }

/-- The page that a request asks for; a missing token is an empty one. -/
def ofRequest (r : Resolver) (cursor : Option Bytes) (pageSize : Option Int64)
    (requested : List SortKey) : Checked Keyset := do
  let order ← activeOrder r requested
  ofToken r.dialect order (r.table.pagination.clampSize pageSize) (cursor.getD [])

/-- The rows of a page, and the token of the next one. -/
structure Page where
  rows : List Json
  nextCursor : Option Bytes := none
deriving Repr

/-- The boundary that a row makes: its value of every term, null where it has none. -/
def boundaryOf (order : List OrderTerm) (row : Json) : Json :=
  .record (order.map fun t => (t.field, (row.get? (boundaryName t.field)).getD .null))

/-- Cuts the row that was fetched beyond the page, and makes the next token of the page's last row. -/
def finish (k : Keyset) (rows : List Json) : Page :=
  if Int64.ofNat rows.length ≤ k.pageSize then { rows }
  else
    let kept := rows.take k.pageSize.toInt.toNat
    { rows := kept
      nextCursor := kept.getLast?.map fun last => Cursor.encode (boundaryOf k.order last) }

/-- What a response says of its page. -/
def Page.toMeta (p : Page) (pageSize : Int64) : Json :=
  .record
    [("nextCursor", (p.nextCursor.map Json.str).getD .null), ("pageSize", .ofInt64 pageSize),
      ("hasMore", .bool p.nextCursor.isSome)]

end Keyset

end TableQuery

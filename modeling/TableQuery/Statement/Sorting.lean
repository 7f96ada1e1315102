import TableQuery.Field.Resolver

/-!
# Sorting

The order that a request asks for, as terms of the statement. Leniently, keys that cannot be sorted by
are dropped, and the description's own order takes the place of an empty one. Strictly, as pages by
cursor need it, such a key is a fault, and so is a hidden one.
-/

namespace TableQuery

namespace Resolver

/-- The term of a field. -/
def termOf (f : Field) (direction : SortDirection) : OrderTerm :=
  { field := f.name, expression := f.expression, direction, nullable := f.nullable }

/-- The term of a sort key, none if it cannot be sorted by. -/
def lenientTerm (r : Resolver) (key : SortKey) : Option OrderTerm :=
  ((r.resolve key.field).filter fun f => f.supports .sort).map fun f => termOf f key.direction

/-- The term of a sort key that a page by cursor depends on. -/
def strictTerm (r : Resolver) (key : SortKey) : Checked OrderTerm := do
  match ← r.resolveFor key.field .sort with
  | none =>
    .error (.field key.field (Bytes.ofString "Cannot sort by unknown field '" ++ key.field ++ "'"))
  | some f =>
    if f.hidden then
      .error (.field key.field (Bytes.ofString "Cannot paginate by hidden field '" ++ key.field ++ "'"))
    else return termOf f key.direction

/-- The description's own order. -/
def defaultOrder (r : Resolver) : List OrderTerm := r.table.defaultSort.filterMap r.lenientTerm

/-- The order of a page by number. -/
def lenientOrder (r : Resolver) (requested : List SortKey) : List OrderTerm :=
  let terms := requested.filterMap r.lenientTerm
  if terms.isEmpty then r.defaultOrder else terms

/-- The order of a page by cursor, before the key that makes it total. -/
def strictOrder (r : Resolver) (requested : List SortKey) : Checked (List OrderTerm) :=
  (if requested.isEmpty then r.table.defaultSort else requested).mapM r.strictTerm

end Resolver

end TableQuery

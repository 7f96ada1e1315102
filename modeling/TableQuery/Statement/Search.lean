import TableQuery.Field.Resolver
import TableQuery.Request.Value

/-!
# Search

A search term is looked for in the fields that the description names, as a part of their text in any
case, or by the full-text search of the dialect. Fields that cannot be searched are left out; a blank
term, or one without fields, asks for nothing.
-/

namespace TableQuery

namespace Resolver

/-- The expression of a field's text. -/
def textOf (r : Resolver) (f : Field) : Fragment :=
  if f.type = .string then f.expression
  else (((Fragment.text "CAST(" ++ f.expression).add " AS ").add r.dialect.textType).add ")"

/-- The fields of a search that can be searched. -/
def searchFields (r : Resolver) (search : Search) : List Field :=
  search.fields.filterMap fun name => (r.resolve name).filter fun f => f.supports .search

/-- A full-text search over fields. -/
def fullText (r : Resolver) (language term : Bytes) (fields : List Field) : Checked Fragment := do
  r.dialect.require .fullTextSearch
  let parts := fields.map fun f => (Fragment.text "coalesce(" ++ r.textOf f).add ", '')"
  let document :=
    ((Fragment.text "to_tsvector(CAST(").bind (.str language)).add " AS regconfig), "
      ++ Fragment.join " || ' ' || " parts
  let asked := (document.add ") @@ plainto_tsquery(CAST(").bind (.str language)
  return ((asked.add " AS regconfig), ").bind (.str term)).add ")"

/-- The condition of a search term. -/
def search (r : Resolver) (limits : Limits) (term : Option Bytes) : Checked Fragment :=
  match term, r.table.search with
  | some term, some search =>
    if !search.enabled || search.fields.isEmpty then .ok .empty
    else do
      let trimmed ← limits.checkSearchTerm term
      let fields := r.searchFields search
      if trimmed.isEmpty || fields.isEmpty then return .empty
      else if search.fullText then r.fullText search.language trimmed fields
      else
        return Fragment.any (← fields.mapM fun f =>
          Operator.contains.apply (r.textOf f) (.str trimmed) r.dialect f.name)
  | _, _ => .ok .empty

end Resolver

end TableQuery

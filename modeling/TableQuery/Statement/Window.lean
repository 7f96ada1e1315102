import TableQuery.Table.Section

/-!
# Pages by number

The rows of a numbered page: how many there are on it and how many come before it. The page size is held
between one and the greatest size of the description. A page number is held back where the number of
rows before the page would not fit a 64-bit integer, so the product that gives it never wraps.
-/

namespace TableQuery

/-- The rows of one page. -/
structure Window where
  enabled : Bool := true
  page : Int64 := 1
  pageSize : Int64 := 10
  /-- The greatest number of rows; none for all of them. -/
  limit : Option Int64 := none
  offset : Int64 := 0
deriving Repr, DecidableEq

namespace Pagination

/-- The greatest page size, at least one. -/
def greatestSize (p : Pagination) : Int64 := if p.maxPageSize < 1 then 1 else p.maxPageSize

/-- A page size within the bounds: the requested one, or the usual one. -/
def clampSize (p : Pagination) (requested : Option Int64) : Int64 :=
  let size := requested.getD p.defaultPageSize
  if size < 1 then 1 else if p.greatestSize < size then p.greatestSize else size

end Pagination

namespace Window

/-- The greatest 64-bit integer. -/
def greatest : Int64 := 9223372036854775807

/-- The window of a requested page. -/
def ofRequest (p : Pagination) (page pageSize : Option Int64) : Window :=
  if !p.enabled then { enabled := false, pageSize := 0 }
  else
    let size := p.clampSize pageSize
    let before := page.getD 1 - 1
    let mostBefore := greatest / size
    let number :=
      if page.getD 1 ≤ 1 then 1
      else (if mostBefore < before then mostBefore else before) + 1
    { page := number, pageSize := size, limit := some size, offset := (number - 1) * size }

/-- What a response says of its page, given how many rows there are in all. -/
def toMeta (w : Window) (total : Int64) : Json :=
  if !w.enabled then
    .record [("total", .ofInt64 total), ("page", .int 1), ("pageSize", .ofInt64 total),
      ("totalPages", .int 1)]
  else
    let pages := if 0 < w.pageSize then (total + w.pageSize - 1) / w.pageSize else 1
    .record [("total", .ofInt64 total), ("page", .ofInt64 w.page), ("pageSize", .ofInt64 w.pageSize),
      ("totalPages", .ofInt64 pages)]

end Window

end TableQuery

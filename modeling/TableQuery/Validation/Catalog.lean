import TableQuery.Fault

/-!
# Schema catalogs

The tables that a database is known to have, with their columns.
-/

namespace TableQuery

/-- Tables with their columns. -/
structure Catalog where
  tables : Members (List Bytes) := []
deriving Repr

namespace Catalog

/-- Whether there is a table. -/
def hasTable (c : Catalog) (table : Bytes) : Bool := Members.has table c.tables

/-- Whether a table has a column. -/
def hasColumn (c : Catalog) (table column : Bytes) : Bool :=
  ((Members.find? table c.tables).getD []).contains column

/-- Reads the tables one by one. -/
def read (j : Json) : Json.Reading Catalog := do
  let tables ← j.items.mapM fun (table, columns) => do
    let columns ← columns.asTexts
    pure (table, columns)
  return { tables := Members.ofList tables }

/-- Reads a catalog. -/
def ofJson (j : Json) : Checked Catalog :=
  (read j).mapError fun mismatch =>
    .config "Invalid schema catalog" (.record [("reason", .str mismatch.text)])

end Catalog

end TableQuery

import TableQuery.Table.Basic

/-!
# Documents of tables

A document describes one table, or holds a list of descriptions, or a map of them by name, under
`tables`. In a map, a description that lacks a name takes the one it is filed under.
-/

namespace TableQuery

namespace Table

/-- A description filed under a name. -/
def ofNamed (name : Bytes) (j : Json) : Checked Table :=
  match j with
  | .obj members =>
    ofJson (if Members.has "name" members then j
      else .obj (Members.insert "name" (.str name) members))
  | _ =>
    .error (.config (Bytes.ofString "Table '" ++ name ++ "' must be an object")
      (.record [("table", .str name)]))

/-- Reads the tables of a document. -/
def listOfJson (document : Json) : Checked (List Table) :=
  if !document.isObj then .error (.config "Table configuration must be an object" (.obj []))
  else match document.get? "tables" with
    | none => do return [← ofJson document]
    | some (.arr entries) => entries.mapM ofJson
    | some (.obj entries) => entries.mapM fun (name, entry) => ofNamed name entry
    | some _ => .error (.config "'tables' must be a list or a map" (.obj []))

/-- The table of a name. -/
def findIn (tables : List Table) (name : Bytes) : Checked Table :=
  match tables.find? fun t => t.name == name with
  | some t => .ok t
  | none =>
    .error (.config (Bytes.ofString "Unknown table '" ++ name ++ "'")
      (.record [("table", .str name), ("available", .ofTexts (tables.map Table.name))]))

end Table

end TableQuery

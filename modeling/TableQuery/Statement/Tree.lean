import TableQuery.Field.Resolver

/-!
# Trees of rows

The statement that walks a tree of rows level by level: a recursive table of the roots and, step by
step, of the children of the rows found so far, down to the greatest depth. The scope of the request
restricts what comes out of the walk, not the walk itself.
-/

namespace TableQuery

namespace TreeWalk

/-- The name of the recursive table. -/
def treeName : Bytes := "tree"

/-- The name of the base table where roots are found. -/
def rootName : Bytes := "t"

/-- The name of the base table where children are found. -/
def childName : Bytes := "c"

end TreeWalk

namespace Resolver

/-- The database column of a source, without its table. -/
def bareSource (c : Column) : Bytes :=
  match Bytes.cut Ascii.dot c.source with
  | some (_, column) => column
  | none => c.source

/-- The column behind a field of the base table. -/
def baseColumn? (r : Resolver) (name : Bytes) : Option Column :=
  match r.resolve name with
  | some { source := .base, origin := .column c, .. } => some c
  | _ => none

/-- The database column of a key of the walk. -/
def keyColumn (r : Resolver) (key : Bytes) : Checked Bytes :=
  match r.baseColumn? key with
  | some c => .ok (bareSource c)
  | none =>
    .error (.config (Bytes.ofString "Recursive key '" ++ key ++ "' must be a base column")
      (.record [("field", .str key), ("table", .str r.table.name)]))

/-- A column of one of the tables of the walk. -/
def walkColumn (d : Dialect) (table column : Bytes) : Fragment :=
  Fragment.identifier d (table ++ Ascii.dot :: column)

/-- An expression as text. -/
def asSqlText (d : Dialect) (f : Fragment) : Fragment :=
  (((Fragment.text "CAST(" ++ f).add " AS ").add d.textType).add ")"

/-- The condition of the roots. -/
def rootCondition (r : Resolver) (w : TreeWalk) (parent : Bytes) : Checked Fragment :=
  match w.startWith with
  | none => .ok ((walkColumn r.dialect TreeWalk.rootName parent).add " IS NULL")
  | some start =>
    match r.baseColumn? start.field with
    | some c =>
      start.op.apply (walkColumn r.dialect TreeWalk.rootName (bareSource c)) start.value r.dialect
        start.field
    | none =>
      .error (.config
        (Bytes.ofString "Recursive start_with references unknown field '" ++ start.field ++ "'")
        (.record [("field", .str start.field)]))

/-- Refuses a description without a walk, a walk without depth, and a dialect without recursion. -/
def requireWalk (r : Resolver) : Checked TreeWalk :=
  match r.table.walk with
  | none =>
    .error (.config
      (Bytes.ofString "Table '" ++ r.table.name ++ "' has no recursive configuration")
      (.record [("table", .str r.table.name)]))
  | some w =>
    if w.maxDepth < 1 then
      .error (.config "Recursive max_depth must be at least 1" (.record [("table", .str r.table.name)]))
    else do
      r.dialect.require .recursiveCte
      return w

/-- The statement of the walk, restricted by a scope. -/
def walkStatement (r : Resolver) (scope : Fragment) : Checked Fragment := do
  let w ← r.requireWalk
  let d := r.dialect
  let parent ← r.keyColumn w.parentKey
  let child ← r.keyColumn w.childKey
  let roots ← r.rootCondition w parent
  let tree := d.quoteName TreeWalk.treeName
  let base := d.quoteName r.table.base
  let root := d.quoteName TreeWalk.rootName
  let next := d.quoteName TreeWalk.childName
  let depth := d.quoteName w.depthName
  let path := d.quoteName w.pathName
  let inTree (column : Bytes) : Bytes := tree ++ Ascii.dot :: column
  let hasPath := !w.pathName.isEmpty
  let rootPath :=
    if hasPath then
      ((Fragment.text ", " ++ asSqlText d (walkColumn d TreeWalk.rootName child)).add " AS ").add path
    else .empty
  let nextPath :=
    if hasPath then
      ((Fragment.text ", ").add (inTree path)).add " || '/' || "
        ++ asSqlText d (walkColumn d TreeWalk.childName child)
    else .empty
  let rootsPart :=
    ((Fragment.text
        (Bytes.ofString "WITH RECURSIVE " ++ tree ++ " AS (SELECT " ++ root ++ ".*, 0 AS " ++ depth)
      ++ rootPath).add (Bytes.ofString " FROM " ++ base ++ " " ++ root ++ " WHERE "))
      ++ roots
  let stepPart :=
    (((Fragment.text
          (Bytes.ofString " UNION ALL SELECT " ++ next ++ ".*, " ++ inTree depth ++ " + 1")
        ++ nextPath).add
        (Bytes.ofString " FROM " ++ base ++ " " ++ next ++ " INNER JOIN " ++ tree ++ " ON "))
      ++ walkColumn d TreeWalk.childName parent).add
      (Bytes.ofString " = " ++ inTree (d.quoteName child) ++ " WHERE " ++ inTree depth ++ " < ")
  let walk := (rootsPart ++ stepPart.bind (.int w.maxDepth.toInt)).add ")"
  let result := walk.add (Bytes.ofString " SELECT * FROM " ++ tree)
  let restricted := if scope.isEmpty then result else result.add " WHERE " ++ scope
  return restricted.add
    (Bytes.ofString " ORDER BY " ++ inTree depth ++ ", " ++ inTree (d.quoteName child))

end Resolver

end TableQuery

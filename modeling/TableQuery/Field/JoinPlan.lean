import TableQuery.Table.Basic

/-!
# Join plans

The joins of a description, flattened into the clauses of a statement. The forest is walked in
preorder: a join's clause and columns come before those of the joins that hang on it.

A plan exists only if every qualifier is used once, the base table's name included, no two joins expose
columns of one name, and the dialect has the joins that are asked for.
-/

namespace TableQuery

/-- One `JOIN` of a statement. -/
structure JoinClause where
  type : JoinType
  table : Bytes
  tableAlias : Bytes
  condition : Fragment
deriving Repr

namespace JoinClause

/-- The keyword of a join type. -/
def keyword : JoinType → Bytes
  | .left => "LEFT JOIN"
  | .right => "RIGHT JOIN"
  | .inner => "INNER JOIN"
  | .full => "FULL JOIN"

/-- The name that qualifies the joined table's columns. -/
def qualifier (c : JoinClause) : Bytes := if c.tableAlias.isEmpty then c.table else c.tableAlias

/-- The clause in SQL. -/
def toSql (d : Dialect) (c : JoinClause) : Fragment :=
  let joined := ((Fragment.text (keyword c.type)).add " ").add (d.quoteName c.table)
  let named :=
    if !c.tableAlias.isEmpty && c.tableAlias != c.table then
      (joined.add " AS ").add (d.quoteName c.tableAlias)
    else joined
  named.add " ON " ++ c.condition

end JoinClause

/-- A column that a join exposes, and how far down the forest the join is. -/
structure JoinColumn where
  column : Column
  qualifier : Bytes
  depth : Nat
deriving Repr

/-- The clauses and columns of a forest of joins on a base table. -/
structure JoinPlan where
  base : Bytes
  clauses : List JoinClause := []
  columns : List JoinColumn := []
deriving Repr

namespace JoinPlan

/-- The names by which tables are known in the statement, the base table's first. -/
def qualifiers (p : JoinPlan) : List Bytes := p.base :: p.clauses.map JoinClause.qualifier

/-- Whether a joined table is known by a name. -/
def hasQualifier (p : JoinPlan) (name : Bytes) : Bool :=
  (p.clauses.map JoinClause.qualifier).contains name

/-! ## Conditions -/

/-- A dotted name as it is, a bare one within a table. -/
def qualified (d : Dialect) (name qualifier : Bytes) : Fragment :=
  if name.contains Ascii.dot then Fragment.identifier d name
  else Fragment.identifier d (qualifier ++ Ascii.dot :: name)

/-- The condition of a join to a parent table. -/
def condition (d : Dialect) (parent : Bytes) (j : Join) : Fragment :=
  match j.condition with
  | .sql trusted => Fragment.trusted trusted
  | .columns left right =>
    (qualified d left parent).add " = " ++ qualified d right j.qualifier

/-! ## Faults -/

/-- The fault of a qualifier that is taken. -/
def qualifierTaken (qualifier : Bytes) : Fault :=
  .config (Bytes.ofString "Join qualifier '" ++ qualifier ++ "' is used more than once")
    (.record [("qualifier", .str qualifier)])

/-- The fault of a column name that two joins expose. -/
def columnTaken (column first second : Bytes) : Fault :=
  .config
    (Bytes.ofString "Join column '" ++ column ++ "' is exposed by both '" ++ first ++ "' and '"
      ++ second ++ "'")
    (.record [("column", .str column), ("joins", .ofTexts [first, second])])

/-! ## Building -/

/-- Adds the clause of a join. -/
def addClause (p : JoinPlan) (d : Dialect) (parent : Bytes) (j : Join) : Checked JoinPlan := do
  if j.type = .full then d.require .fullJoin
  if p.qualifiers.contains j.qualifier then .error (qualifierTaken j.qualifier)
  else
    let clause : JoinClause :=
      { type := j.type, table := j.table, tableAlias := j.tableAlias, condition := condition d parent j }
    return { p with clauses := p.clauses ++ [clause] }

/-- Adds a column of a join. -/
def addColumn (qualifier : Bytes) (depth : Nat) (p : JoinPlan) (column : Column) : Checked JoinPlan :=
  match p.columns.find? fun c => c.column.name == column.name with
  | some other => .error (columnTaken column.name other.qualifier qualifier)
  | none => .ok { p with columns := p.columns ++ [{ column, qualifier, depth }] }

mutual

/-- Adds a join with all that hangs on it. -/
def addJoin (d : Dialect) (parent : Bytes) (depth : Nat) (p : JoinPlan) : Join → Checked JoinPlan
  | .mk table tableAlias type condition columns joins => do
    let j := Join.mk table tableAlias type condition columns joins
    let p ← p.addClause d parent j
    let p ← columns.foldlM (addColumn j.qualifier depth) p
    addJoins d j.qualifier (depth + 1) p joins

/-- Adds each join of a list. -/
def addJoins (d : Dialect) (parent : Bytes) (depth : Nat) (p : JoinPlan) :
    List Join → Checked JoinPlan
  | [] => .ok p
  | j :: rest => do
    let p ← addJoin d parent depth p j
    addJoins d parent depth p rest

end

/-- The plan of a description's joins. -/
def ofTable (t : Table) (d : Dialect) : Checked JoinPlan :=
  addJoins d t.base 0 { base := t.base } t.joins

end JoinPlan

end TableQuery

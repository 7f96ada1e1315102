import TableQuery.Table.Basic

/-!
# Role visibility

A column may be restricted to some roles. For a caller without any of them the description is derived
anew: the column is hidden and can be neither sorted nor filtered by, and its name is dropped from the
search fields and from the filters on offer. All else stays as it was.
-/

namespace TableQuery

namespace Column

/-- Whether a column is restricted to some roles. -/
def isRestricted (c : Column) : Bool := !c.visibleTo.isEmpty

/-- Whether a caller with these roles may see a column. -/
def isVisibleTo (roles : List Bytes) (c : Column) : Bool :=
  c.visibleTo.isEmpty || c.visibleTo.any fun role => roles.contains role

/-- A column as a caller with these roles gets it. -/
def restrict (roles : List Bytes) (c : Column) : Column :=
  if c.isVisibleTo roles then c
  else { c with hidden := true, sortable := false, filterable := false }

/-- The names of the columns that a caller with these roles may not see. -/
def invisibleNames (roles : List Bytes) (columns : List Column) : List Bytes :=
  (columns.filter fun c => !c.isVisibleTo roles).map Column.name

end Column

namespace Join

mutual

/-- A join as a caller with these roles gets it. -/
def restrict (roles : List Bytes) : Join → Join
  | mk table tableAlias type condition columns joins =>
    mk table tableAlias type condition (columns.map (Column.restrict roles))
      (restrictList roles joins)

/-- Each join of a list, as a caller with these roles gets it. -/
def restrictList (roles : List Bytes) : List Join → List Join
  | [] => []
  | j :: rest => j.restrict roles :: restrictList roles rest

end

mutual

/-- The columns of a join and of all that hangs on it. -/
def allColumns : Join → List Column
  | mk _ _ _ _ columns joins => columns ++ allColumnsOf joins

/-- The columns of the joins of a list and of all that hangs on them. -/
def allColumnsOf : List Join → List Column
  | [] => []
  | j :: rest => j.allColumns ++ allColumnsOf rest

end

end Join

namespace Table

/-- Every column of a description, joined ones included. -/
def allColumns (t : Table) : List Column := t.columns ++ Join.allColumnsOf t.joins

/-- Whether any column is restricted to some roles. -/
def hasRoleRestrictions (t : Table) : Bool := t.allColumns.any Column.isRestricted

/-- A search section without some fields. -/
def searchWithout (names : List Bytes) (s : Search) : Search :=
  { s with fields := s.fields.filter fun field => !names.contains field }

/-- The description as a caller with these roles gets it. -/
def visibleTo (t : Table) (roles : List Bytes) : Table :=
  let invisible := Column.invisibleNames roles t.allColumns
  { t with
    columns := t.columns.map (Column.restrict roles)
    joins := Join.restrictList roles t.joins
    filters := t.filters.filter fun f =>
      !(f.kind == .dynamic && invisible.contains f.condition.field)
    search := t.search.map (searchWithout invisible) }

end Table

end TableQuery

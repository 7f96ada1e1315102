import TableQuery.Proofs.Field.Collision
import TableQuery.Proofs.Field.Counterpart

/-!
# What a name leads to

A description declares columns, its own and those of joins, and subqueries. `Table.lookup` says which of these
declarations a name leads to, from the description alone. A name in full comes first: that of a column of the base
table, of a column of a join, of a computed column, of a subquery. Only a name that none of them has is cut at its first
dot, and leads to a column of the table before the dot.

## What is proved

`Resolver.resolve_eq_lookup`: look-up finds the field of the declaration that a name leads to, and nothing else. The
name has no other part in the field.
-/

namespace TableQuery

/-! ## Declarations -/

/-- The table that a column is read through: the one before the dot of its source, or else the one it is declared
in. -/
def Column.tableOr (table : Bytes) (c : Column) : Bytes :=
  match Bytes.cut Ascii.dot c.source with
  | some (named, _) => named
  | none => table

/-- A part of a description that declares a field. -/
inductive Declaration where
  | own (column : Column)
  | joined (column : JoinColumn)
  | subquery (subquery : Subquery)

namespace Declaration

/-- The name of the field. -/
def name : Declaration → Bytes
  | own c => c.name
  | joined c => c.column.name
  | subquery s => s.name

/-- The table that the field is read through, where the description's own columns go by the name `base`. What is
computed is read through none. -/
def table? (base : Bytes) : Declaration → Option Bytes
  | own c => if c.computed then none else some (c.tableOr base)
  | joined c => if c.column.computed then none else some (c.column.tableOr c.qualifier)
  | subquery _ => none

/-- The field that is declared in a description of `t`, whose own columns go by the name `base`. -/
def field (t : Table) (d : Dialect) (base : Bytes) : Declaration → Checked Field
  | own c => .ok (Field.ofColumn d [base, t.base] base c)
  | joined c => .ok (Field.ofColumn d [base, t.base] c.qualifier c.column)
  | subquery s => Field.ofSubquery d s

end Declaration

namespace Table

/-- Whether a column of the base table has a name. -/
def shadowsName (t : Table) (name : Bytes) : Bool := t.columns.any fun c => !c.computed && c.name == name

/-- The columns of the base table. -/
def baseColumns (t : Table) : List Declaration := (t.columns.filter fun c => !c.computed).map .own

/-- The computed columns. -/
def computedColumns (t : Table) : List Declaration := (t.columns.filter fun c => c.computed).map .own

/-- The columns of joins that no column of the base table shadows. -/
def openColumns (t : Table) : List Declaration :=
  (t.joinColumns.filter fun c => !t.shadowsName c.column.name).map .joined

/-- The columns of joins that one shadows. -/
def shadowedColumns (t : Table) : List Declaration :=
  (t.joinColumns.filter fun c => t.shadowsName c.column.name).map .joined

/-- All columns, those that are shadowed last. -/
def columnsInTurn (t : Table) : List Declaration := t.columns.map .own ++ t.openColumns ++ t.shadowedColumns

/-- The declarations that a name in full may lead to, in the order in which they are looked through. -/
def declarations (t : Table) : List Declaration :=
  t.baseColumns ++ t.openColumns ++ t.computedColumns ++ t.subqueries.map .subquery

/-- The declaration that a name leads to, where the description's own columns go by the name `base`. -/
def lookup (t : Table) (base name : Bytes) : Option Declaration :=
  (t.declarations.find? fun e => e.name == name).or <| (Bytes.cut Ascii.dot name).bind fun (table, column) =>
    (t.columnsInTurn.find? fun e => e.table? base == some table && e.name == column).or <|
      -- the table's own name leads to its columns even where they go by another
      if table = t.base ∧ base ≠ t.base then t.baseColumns.find? fun e => e.name == column else none

end Table

/-! ## Fields and their declarations -/

namespace Field

/-- A column's field is computed if the column is, and else is read through the column's table. -/
theorem of_ofColumn (d : Dialect) (baseNames : List Bytes) (table : Bytes) (c : Column) :
    let f := ofColumn d baseNames table c
    (f.source == .computed) = c.computed ∧ f.isTableColumn = !c.computed
      ∧ (c.computed = false → f.qualifier = c.tableOr table) := by
  unfold ofColumn
  cases computed : c.computed with
  | true => exact ⟨rfl, by simp [isTableColumn, ofComputed, computed], nofun⟩
  | false =>
    rw [if_neg Bool.false_ne_true]
    unfold ofTableColumn Column.tableOr
    refine ⟨?_, by simp [isTableColumn, computed], fun _ => ?_⟩
    · dsimp only
      split_ifs <;> rfl
    · cases Bytes.cut Ascii.dot c.source <;> rfl

/-- The field of a declaration. -/
structure Declares (t : Table) (d : Dialect) (base : Bytes) (e : Declaration) (f : Field) : Prop where
  made : e.field t d base = .ok f
  name : f.name = e.name
  table : e.table? base = if f.isTableColumn then some f.qualifier else none

variable {t : Table} {d : Dialect} {base : Bytes}

theorem table_ofColumn (d : Dialect) (baseNames : List Bytes) (table : Bytes) (c : Column) :
    let f := ofColumn d baseNames table c
    (if c.computed then none else some (c.tableOr table)) = if f.isTableColumn then some f.qualifier else none := by
  obtain ⟨-, column, through⟩ := of_ofColumn d baseNames table c
  dsimp only
  rw [column]
  cases computed : c.computed with
  | true => rfl
  | false =>
    rw [through computed]
    rfl

theorem declares_own (c : Column) : Declares t d base (.own c) (ofColumn d [base, t.base] base c) :=
  ⟨rfl, Resolver.ofColumn_name _ _ _ _, table_ofColumn _ _ _ _⟩

theorem declares_joined (c : JoinColumn) :
    Declares t d base (.joined c) (ofColumn d [base, t.base] c.qualifier c.column) :=
  ⟨rfl, Resolver.ofColumn_name _ _ _ _, table_ofColumn _ _ _ _⟩

theorem declares_subquery {s : Subquery} {f : Field} (made : ofSubquery d s = .ok f) :
    Declares t d base (.subquery s) f := by
  refine ⟨made, Resolver.ofSubquery_name made, ?_⟩
  rw [Resolver.isTableColumn_ofSubquery made]
  rfl

theorem mapM_of_declares {e : Option Declaration} {f : Option Field} (h : Option.Rel (Declares t d base) e f) :
    e.mapM (Declaration.field t d base) = .ok f := by
  cases h with
  | none => rfl
  | some declares =>
    rw [Option.mapM_some, declares.made]
    rfl

end Field

namespace Resolver

variable {r : Resolver} {qualifier : Bytes} {t : Table} {d : Dialect}

/-- The lists of a resolver hold the fields of the declarations that look-up goes through, in the same order. -/
structure DeclaredBy (r : Resolver) (t : Table) (d : Dialect) (base : Bytes) : Prop where
  declared : List.Forall₂ (Field.Declares t d base) (t.columns.map .own) r.declared
  baseFields : List.Forall₂ (Field.Declares t d base) t.baseColumns r.baseFields
  computedFields : List.Forall₂ (Field.Declares t d base) t.computedColumns r.computedFields
  joined : List.Forall₂ (Field.Declares t d base) t.openColumns r.joined
  shadowed : List.Forall₂ (Field.Declares t d base) t.shadowedColumns r.shadowed
  subqueries : List.Forall₂ (Field.Declares t d base) (t.subqueries.map .subquery) r.subqueries

theorem declaredBy (hr : r.Describes qualifier t d) : r.DeclaredBy t d (qualifierOr qualifier t) := by
  let base := qualifierOr qualifier t
  let ofOwn (c : Column) (f : Field) : Prop := Field.ofColumn d [base, t.base] base c = f
  let ofJoined (c : JoinColumn) (f : Field) : Prop := Field.ofColumn d [base, t.base] c.qualifier c.column = f
  have columns : List.Forall₂ ofOwn t.columns r.declared := by
    rw [(addFields_eq hr.declared).1, ownFields, List.forall₂_map_right_iff, List.forall₂_same]
    exact fun _ _ => rfl
  have joins : List.Forall₂ ofJoined t.joinColumns r.joinFields := by
    rw [joinFields, JoinPlan.columns_ofTable hr.joins, hr.dialect, hr.baseQualifier, hr.table, List.forall₂_map_right_iff,
      List.forall₂_same]
    exact fun _ _ => rfl
  have own {l : List Column} {fs : List Field} (h : List.Forall₂ ofOwn l fs) :
      List.Forall₂ (Field.Declares t d base) (l.map .own) fs := by
    rw [List.forall₂_map_left_iff]
    exact h.imp fun c _ made => made ▸ Field.declares_own c
  have joined {l : List JoinColumn} {fs : List Field} (h : List.Forall₂ ofJoined l fs) :
      List.Forall₂ (Field.Declares t d base) (l.map .joined) fs := by
    rw [List.forall₂_map_left_iff]
    exact h.imp fun c _ made => made ▸ Field.declares_joined c
  have computed (c : Column) (f : Field) (h : ofOwn c f) : c.computed = (f.source == .computed) := by
    subst h
    exact (Field.of_ofColumn _ _ _ _).1.symm
  have shadows (c : JoinColumn) (f : Field) (h : ofJoined c f) : t.shadowsName c.column.name = r.shadows f := by
    subst h
    refine any_eq_of_forall₂ columns fun c g made => ?_
    rw [computed c g made, ofColumn_name, ← made, ofColumn_name]
    rfl
  refine ⟨own columns, own ?_, own ?_, joined ?_, joined ?_, ?_⟩
  · exact rel_filter columns fun c f made => by rw [computed c f made, bne]
  · exact rel_filter columns computed
  · rw [hr.joined]
    exact rel_filter joins fun c f made => by rw [shadows c f made]
  · rw [hr.shadowed]
    exact rel_filter joins shadows
  · rw [List.forall₂_map_left_iff]
    exact (Checked.mapM_eq_ok.mp (addSubqueries_eq hr.subqueries)).imp fun _ _ => Field.declares_subquery

/-- A name in full finds the field of the declaration that it leads to. -/
theorem DeclaredBy.resolvePlain {base : Bytes} (h : r.DeclaredBy t d base) (name : Bytes) :
    Option.Rel (Field.Declares t d base) (t.declarations.find? fun e => e.name == name) (r.resolvePlain name) := by
  have find {es : List Declaration} {fs : List Field} (related : List.Forall₂ (Field.Declares t d base) es fs) :
      Option.Rel (Field.Declares t d base) (es.find? fun e => e.name == name) (find? name fs) :=
    rel_find? related fun e f declares => by rw [declares.name]
  simp only [Table.declarations, List.find?_append, Option.or_assoc]
  exact Option.rel_or (find h.baseFields) (Option.rel_or (find h.joined)
    (Option.rel_or (find h.computedFields) (find h.subqueries)))

/-- A name with a qualifier finds the field of the column that it leads to. -/
theorem Describes.resolveQualified (hr : r.Describes qualifier t d) (table column : Bytes) :
    Option.Rel (Field.Declares t d (qualifierOr qualifier t))
      ((t.columnsInTurn.find? fun e => e.table? (qualifierOr qualifier t) == some table && e.name == column).or <|
        if table = t.base ∧ qualifierOr qualifier t ≠ t.base then t.baseColumns.find? fun e => e.name == column
        else none)
      (r.resolveQualified table column) := by
  have h := declaredBy hr
  have meant (e : Declaration) (f : Field) (declares : Field.Declares t d (qualifierOr qualifier t) e f) :
      (e.table? (qualifierOr qualifier t) == some table && e.name == column) = isMeant table column f := by
    unfold isMeant
    rw [declares.table, declares.name]
    cases f.isTableColumn <;> rfl
  -- A subquery's field is among the exposed ones, but no name with a qualifier means it.
  have unread : r.subqueries.find? (isMeant table column) = none := by
    rw [List.find?_eq_none]
    intro f mem means
    have read := (isMeant_iff.mp means).1
    rw [hr.not_isTableColumn mem] at read
    cases read
  have fields : r.fields.find? (isMeant table column)
      = (r.declared.find? (isMeant table column)).or (r.joined.find? (isMeant table column)) := by
    rw [Resolver.fields, List.find?_append, List.find?_append, unread, Option.or_none]
  have base : Option.Rel (Field.Declares t d (qualifierOr qualifier t))
      (if table = t.base ∧ qualifierOr qualifier t ≠ t.base then t.baseColumns.find? fun e => e.name == column
        else none)
      (if table == r.table.base && r.baseQualifier != r.table.base then find? column r.baseFields else none) := by
    simp only [hr.table, hr.baseQualifier, Bool.and_eq_true, beq_iff_eq, bne_iff_ne]
    split_ifs
    · exact rel_find? h.baseFields fun e f declares => by rw [declares.name]
    · exact .none
  unfold Resolver.resolveQualified
  change Option.Rel _ _ ((r.fields.find? (isMeant table column)).or ((r.shadowed.find? (isMeant table column)).or _))
  rw [fields, Table.columnsInTurn, List.find?_append, List.find?_append, Option.or_assoc]
  exact Option.rel_or (Option.rel_or (rel_find? h.declared meant) (rel_find? h.joined meant))
    (Option.rel_or (rel_find? h.shadowed meant) base)

/-- Look-up finds the field of the declaration that a name leads to. The field is made from the declaration, and the
name that was looked up has no part in it. -/
theorem resolve_eq_lookup (made : ofTableAs qualifier t d = .ok r) :
    (∀ name, (t.lookup (qualifierOr qualifier t) name).mapM (Declaration.field t d (qualifierOr qualifier t))
      = .ok (r.resolve name))
    ∧ ∀ name name', t.lookup (qualifierOr qualifier t) name = t.lookup (qualifierOr qualifier t) name' →
      r.resolve name = r.resolve name' := by
  have hr := describes made
  have found (name : Bytes) : Option.Rel (Field.Declares t d (qualifierOr qualifier t))
      (t.lookup (qualifierOr qualifier t) name) (r.resolve name) := by
    refine Option.rel_or ((declaredBy hr).resolvePlain name) ?_
    cases Bytes.cut Ascii.dot name with
    | none => exact .none
    | some parts => exact hr.resolveQualified parts.1 parts.2
  have field (name : Bytes) := Field.mapM_of_declares (found name)
  refine ⟨field, fun name name' same => ?_⟩
  have both := field name
  rw [same, field name'] at both
  exact (Except.ok.inj both).symm

/-- Rosters with their crews and the ships of these. A column of the crews is shadowed. -/
def roster : Table where
  name := "roster"
  base := "roster"
  columns :=
    [{ name := "id", type := .number }, { name := "team", field := "team_id" },
      { name := "label", computed := true, expression := some ⟨"upper(team_id)"⟩ }]
  joins :=
    [.mk "crews" "c" .left (.columns "crew_id" "id") [{ name := "team" }, { name := "captain", field := "lead" }]
      [.mk "ships" [] .left (.columns "ship_id" "id") [{ name := "ship", field := "title" }] []]]
  subqueries := [{ name := "shifts", table := "shifts", predicate := some (.all []) }]

theorem resolve_eq_lookup_roster : ∃ r, ofTableAs "tree" roster .sqlite = .ok r
    ∧ (∀ name, (roster.lookup "tree" name).mapM (Declaration.field roster .sqlite "tree") = .ok (r.resolve name))
    ∧ ["team", "c.team", "roster.team", "tree.team", "ship", "ships.ship", "label", "shifts"].map
        (fun name => (r.resolve name).map fun f => f.expression.sql) =
      ["\"tree\".\"team_id\"", "\"c\".\"team\"", "\"tree\".\"team_id\"", "\"tree\".\"team_id\"",
        "\"ships\".\"title\"", "\"ships\".\"title\"", "(upper(team_id))",
        "(SELECT count(*) FROM \"shifts\" WHERE 1=1)"].map (fun sql => some (Bytes.ofString sql))
    ∧ ["crews.team", "c.ship", "roster.label", "team_id", "c.team.x"].all fun name => (r.resolve name).isNone := by
  obtain ⟨r, made⟩ : Checked.Succeeds (ofTableAs "tree" roster .sqlite) := ⟨_, rfl⟩
  refine ⟨r, made, (resolve_eq_lookup made).1, ?_⟩
  cases made
  decide

end Resolver

end TableQuery

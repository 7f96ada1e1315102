import TableQuery.Proofs.Field.Shadow
import TableQuery.Statement.Compiled

/-!
# What the caller's roles change of the fields

The description that a caller gets differs from the one that was written in what its columns may be used for, and
in nothing that the SQL of a field is made from. So the fields of the one are those of the other, under the same
names and with the same expressions, those of columns that the caller may not see being hidden and neither sorted
nor filtered by (`Field.restrict`).

## What is proved

`Resolver.ofTableAs_visibleTo`: building the fields commutes with deriving the description, the faults included.
`Resolver.resolve_restrict`: so does looking up a name. `Table.eq_visibleTo_of_effective` says which description a
caller gets, and `Table.fields_of_effective` which fields.
-/

namespace TableQuery

variable {roles : List Bytes}

/-! ## Columns and fields -/

namespace Column

/-- A column that is shown to no one, and neither sorted nor filtered by. -/
def conceal (c : Column) : Column := { c with hidden := true, sortable := false, filterable := false }

theorem restrict_of_visible {c : Column} (h : c.isVisibleTo roles = true) : c.restrict roles = c := if_pos h

theorem restrict_of_not_visible {c : Column} (h : ¬c.isVisibleTo roles = true) : c.restrict roles = c.conceal :=
  if_neg h

@[simp] theorem name_restrict (roles : List Bytes) (c : Column) : (c.restrict roles).name = c.name := by
  unfold restrict
  split_ifs <;> rfl

/-- Everyone may see a column without restrictions. -/
theorem isVisibleTo_of_not_isRestricted {c : Column} (h : c.isRestricted = false) :
    c.isVisibleTo roles = true := by
  unfold isRestricted at h
  rw [Bool.not_eq_false'] at h
  unfold isVisibleTo
  rw [h, Bool.true_or]

end Column

namespace FieldOrigin

/-- Whether a caller with these roles may see what a field is declared by. Only columns are restricted. -/
def isVisibleTo (roles : List Bytes) : FieldOrigin → Bool
  | column c => c.isVisibleTo roles
  | subquery _ => true

/-- The column that declares a field, concealed. -/
def conceal : FieldOrigin → FieldOrigin
  | column c => column c.conceal
  | subquery s => subquery s

end FieldOrigin

namespace Field

/-- Whether a caller with these roles may see the column of a field. -/
def isVisibleTo (roles : List Bytes) (f : Field) : Bool := f.origin.isVisibleTo roles

/-- A field that is shown to no one, and neither sorted nor filtered by. -/
def conceal (f : Field) : Field :=
  { f with hidden := true, sortable := false, filterable := false, origin := f.origin.conceal }

/-- A field as a caller with these roles gets it. -/
def restrict (roles : List Bytes) (f : Field) : Field := if f.isVisibleTo roles then f else f.conceal

theorem restrict_of_visible {f : Field} (h : f.isVisibleTo roles = true) : f.restrict roles = f := if_pos h

theorem restrict_of_not_visible {f : Field} (h : ¬f.isVisibleTo roles = true) : f.restrict roles = f.conceal :=
  if_neg h

section Kept

variable (roles : List Bytes) (f : Field)

@[simp] theorem name_restrict : (f.restrict roles).name = f.name := by
  unfold restrict
  split_ifs <;> rfl

@[simp] theorem source_restrict : (f.restrict roles).source = f.source := by
  unfold restrict
  split_ifs <;> rfl

@[simp] theorem expression_restrict : (f.restrict roles).expression = f.expression := by
  unfold restrict
  split_ifs <;> rfl

@[simp] theorem type_restrict : (f.restrict roles).type = f.type := by
  unfold restrict
  split_ifs <;> rfl

@[simp] theorem scalar_restrict : (f.restrict roles).scalar = f.scalar := by
  unfold restrict
  split_ifs <;> rfl

@[simp] theorem qualifier_restrict : (f.restrict roles).qualifier = f.qualifier := by
  unfold restrict
  split_ifs <;> rfl

@[simp] theorem isTableColumn_restrict : (f.restrict roles).isTableColumn = f.isTableColumn := by
  unfold restrict
  split_ifs
  · rfl
  · unfold isTableColumn conceal
    cases f.origin <;> rfl

end Kept

/-! What a field of a caller may still be used for tells that the caller may see its column. -/

variable {f : Field}

theorem isVisibleTo_of_not_hidden (h : (f.restrict roles).hidden = false) : f.isVisibleTo roles = true := by
  by_contra invisible
  rw [restrict_of_not_visible invisible] at h
  cases h

theorem isVisibleTo_of_filterable (h : (f.restrict roles).filterable = true) : f.isVisibleTo roles = true := by
  by_contra invisible
  rw [restrict_of_not_visible invisible] at h
  cases h

theorem isVisibleTo_of_supports_sort (h : (f.restrict roles).supports .sort = true) :
    f.isVisibleTo roles = true := by
  by_contra invisible
  rw [restrict_of_not_visible invisible] at h
  cases h

section OfColumn

variable (d : Dialect) (baseNames : List Bytes) (table : Bytes) (c : Column)

theorem origin_ofColumn : (ofColumn d baseNames table c).origin = .column c := by
  unfold ofColumn
  split_ifs <;> rfl

theorem ofColumn_conceal : ofColumn d baseNames table c.conceal = (ofColumn d baseNames table c).conceal := by
  have same : c.conceal.computed = c.computed := rfl
  unfold ofColumn
  rw [same]
  split_ifs
  · rfl
  · unfold ofTableColumn
    have source : c.conceal.source = c.source := rfl
    rw [source]
    cases Bytes.cut Ascii.dot c.source <;> rfl

/-- The field of a column that the caller gets is the field of the column, as the caller gets it. -/
theorem ofColumn_restrict :
    ofColumn d baseNames table (c.restrict roles) = (ofColumn d baseNames table c).restrict roles := by
  have visibility : (ofColumn d baseNames table c).isVisibleTo roles = c.isVisibleTo roles := by
    unfold isVisibleTo
    rw [origin_ofColumn]
    rfl
  by_cases visible : c.isVisibleTo roles = true
  · rw [Column.restrict_of_visible visible, restrict_of_visible (visibility.trans visible)]
  · rw [Column.restrict_of_not_visible visible, ofColumn_conceal,
      restrict_of_not_visible (visibility ▸ visible)]

end OfColumn

/-- The field of a subquery is the same for everyone. -/
theorem isVisibleTo_ofSubquery {d : Dialect} {s : Subquery} {f : Field} (h : ofSubquery d s = .ok f) :
    f.isVisibleTo roles = true := by
  unfold ofSubquery at h
  split at h
  · cases h
    rfl
  · obtain ⟨expression, -, h⟩ := Checked.bind_eq_ok.mp h
    cases h
    rfl

end Field

/-! ## Joins -/

namespace JoinColumn

/-- A column of a join as a caller with these roles gets it. -/
def restrict (roles : List Bytes) (c : JoinColumn) : JoinColumn := { c with column := c.column.restrict roles }

end JoinColumn

namespace JoinPlan

/-- The joins of a statement, with their columns as a caller with these roles gets them. -/
def restrict (roles : List Bytes) (p : JoinPlan) : JoinPlan :=
  { p with columns := p.columns.map (JoinColumn.restrict roles) }

/-- A column's restriction leaves all that a join's clause is made from as it was. -/
theorem join_restrict (d : Dialect) (parent : Bytes) (j : Join) :
    (j.restrict roles).type = j.type ∧ (j.restrict roles).table = j.table
      ∧ (j.restrict roles).tableAlias = j.tableAlias ∧ (j.restrict roles).qualifier = j.qualifier
      ∧ condition d parent (j.restrict roles) = condition d parent j := by
  cases j
  exact ⟨rfl, rfl, rfl, rfl, rfl⟩

theorem addClause_restrict (p : JoinPlan) (d : Dialect) (parent : Bytes) (j : Join) :
    (p.restrict roles).addClause d parent (j.restrict roles) = (p.addClause d parent j).map (restrict roles) := by
  obtain ⟨type, table, tableAlias, qualifier, condition⟩ := @join_restrict roles d parent j
  have qualifiers : (p.restrict roles).qualifiers = p.qualifiers := rfl
  unfold addClause
  rw [qualifiers, type, table, tableAlias, qualifier, condition]
  dsimp only [bind, Except.bind]
  by_cases full : j.type = .full
  · rw [if_pos full, if_pos full]
    cases d.require .fullJoin with
    | error e => rfl
    | ok u => split_ifs <;> rfl
  · rw [if_neg full, if_neg full]
    split_ifs <;> rfl

theorem addColumn_restrict (qualifier : Bytes) (depth : Nat) (p : JoinPlan) (c : Column) :
    addColumn qualifier depth (p.restrict roles) (c.restrict roles)
      = (addColumn qualifier depth p c).map (restrict roles) := by
  have same : (fun e : JoinColumn => e.column.name == (c.restrict roles).name) ∘ JoinColumn.restrict roles
      = fun e => e.column.name == c.name := by
    funext e
    rw [Column.name_restrict, Function.comp_apply, JoinColumn.restrict, Column.name_restrict]
  have found : (p.restrict roles).columns.find? (fun e => e.column.name == (c.restrict roles).name)
      = (p.columns.find? fun e => e.column.name == c.name).map (JoinColumn.restrict roles) := by
    unfold restrict
    rw [List.find?_map, same]
  unfold addColumn
  rw [found]
  cases p.columns.find? fun e => e.column.name == c.name with
  | some other =>
    rw [Option.map_some, Column.name_restrict]
    rfl
  | none =>
    unfold restrict
    simp only [Option.map_none, Except.map, List.map_append, List.map_singleton]
    rfl

mutual

theorem addJoin_restrict (d : Dialect) (parent : Bytes) (depth : Nat) (p : JoinPlan) (j : Join) :
    addJoin d parent depth (p.restrict roles) (j.restrict roles)
      = (addJoin d parent depth p j).map (restrict roles) := by
  cases j with
  | mk table tableAlias type condition columns joins =>
    have clause := @addClause_restrict roles p d parent (.mk table tableAlias type condition columns joins)
    rw [Join.restrict] at clause ⊢
    rw [addJoin, addJoin, clause]
    cases p.addClause d parent (.mk table tableAlias type condition columns joins) with
    | error e => rfl
    | ok p₁ =>
      have exposed := Checked.foldlM_map (@addColumn_restrict roles
        (Join.mk table tableAlias type condition columns joins).qualifier depth) columns p₁
      have qualifier : (Join.mk table tableAlias type condition (columns.map (Column.restrict roles))
          (Join.restrictList roles joins)).qualifier
            = (Join.mk table tableAlias type condition columns joins).qualifier := rfl
      dsimp only [Except.map, bind, Except.bind] at exposed ⊢
      rw [qualifier, exposed]
      cases columns.foldlM (addColumn (Join.mk table tableAlias type condition columns joins).qualifier depth) p₁ with
      | error e => rfl
      | ok p₂ => exact addJoins_restrict d _ (depth + 1) p₂ joins

theorem addJoins_restrict (d : Dialect) (parent : Bytes) (depth : Nat) (p : JoinPlan) (js : List Join) :
    addJoins d parent depth (p.restrict roles) (Join.restrictList roles js)
      = (addJoins d parent depth p js).map (restrict roles) := by
  cases js with
  | nil => rfl
  | cons j js =>
    rw [Join.restrictList, addJoins, addJoins, addJoin_restrict]
    cases addJoin d parent depth p j with
    | error e => rfl
    | ok p₁ => exact addJoins_restrict d parent depth p₁ js

end

theorem ofTable_visibleTo (t : Table) (d : Dialect) :
    ofTable (t.visibleTo roles) d = (ofTable t d).map (restrict roles) :=
  addJoins_restrict d t.base 0 { base := t.base } t.joins

end JoinPlan

/-! ## Building and looking up -/

namespace Resolver

/-- The fields of a description, as a caller with these roles gets them. -/
def restrict (roles : List Bytes) (r : Resolver) : Resolver :=
  { r with
    table := r.table.visibleTo roles
    joins := r.joins.restrict roles
    declared := r.declared.map (Field.restrict roles)
    joined := r.joined.map (Field.restrict roles)
    shadowed := r.shadowed.map (Field.restrict roles)
    subqueries := r.subqueries.map (Field.restrict roles) }

theorem addField_restrict (twice : Bytes → Fault) (fields : List Field) (f : Field) :
    addField twice (fields.map (Field.restrict roles)) (f.restrict roles)
      = (addField twice fields f).map (List.map (Field.restrict roles)) := by
  unfold addField
  simp only [List.any_map, Function.comp_def, Field.name_restrict]
  split_ifs
  · rfl
  · simp only [Except.map, List.map_append, List.map_singleton]

/-- Nothing of a subquery's field depends on roles. -/
theorem map_restrict_subqueries {t : Table} {d : Dialect} {fields : List Field}
    (h : t.subqueries.foldlM (addSubquery t d) [] = .ok fields) :
    fields.map (Field.restrict roles) = fields := by
  refine (List.map_congr_left fun f mem => ?_).trans (List.map_id fields)
  obtain ⟨s, -, made⟩ := Checked.exists_of_mem_mapM (addSubqueries_eq h) mem
  exact Field.restrict_of_visible (Field.isVisibleTo_ofSubquery made)

theorem ownFields_visibleTo (qualifier : Bytes) (t : Table) (d : Dialect) :
    ownFields qualifier (t.visibleTo roles) d = (ownFields qualifier t d).map (Field.restrict roles) := by
  have own : qualifierOr qualifier (t.visibleTo roles) = qualifierOr qualifier t := rfl
  have base : (t.visibleTo roles).base = t.base := rfl
  have columns : (t.visibleTo roles).columns = t.columns.map (Column.restrict roles) := rfl
  unfold ownFields
  rw [own, base, columns, List.map_map, List.map_map]
  exact List.map_congr_left fun c _ => Field.ofColumn_restrict d _ _ c

theorem joinFields_restrict (r : Resolver) :
    (r.restrict roles).joinFields = r.joinFields.map (Field.restrict roles) := by
  unfold joinFields restrict JoinPlan.restrict
  dsimp only
  rw [List.map_map, List.map_map]
  exact List.map_congr_left fun c _ => Field.ofColumn_restrict r.dialect _ _ c.column

theorem shadows_restrict (r : Resolver) (f : Field) :
    (r.restrict roles).shadows (f.restrict roles) = r.shadows f := by
  unfold shadows restrict
  simp only [List.any_map, Function.comp_def, Field.source_restrict, Field.name_restrict]

/-- The fields of a description by the steps that make them. -/
theorem ofTableAs_eq (qualifier : Bytes) (t : Table) (d : Dialect) :
    ofTableAs qualifier t d = (do
      let joins ← JoinPlan.ofTable t d
      let declared ← (ownFields qualifier t d).foldlM (addField (columnTwice t)) []
      let subqueries ← t.subqueries.foldlM (addSubquery t d) []
      let r : Resolver :=
        { table := t, dialect := d, baseQualifier := qualifierOr qualifier t, joins, declared
          joined := [], shadowed := [], subqueries }
      return { r with
        joined := r.joinFields.filter fun f => !r.shadows f
        shadowed := r.joinFields.filter r.shadows }) := rfl

/-- Building the fields of what a caller gets is building the fields and then restricting them. -/
theorem ofTableAs_visibleTo (qualifier : Bytes) (t : Table) (d : Dialect) :
    ofTableAs qualifier (t.visibleTo roles) d = (ofTableAs qualifier t d).map (restrict roles) := by
  have own : (ownFields qualifier (t.visibleTo roles) d).foldlM (addField (columnTwice (t.visibleTo roles))) []
      = ((ownFields qualifier t d).foldlM (addField (columnTwice t)) []).map (List.map (Field.restrict roles)) := by
    rw [ownFields_visibleTo]
    exact Checked.foldlM_map (addField_restrict (columnTwice t)) (ownFields qualifier t d) []
  have subqueries : (t.visibleTo roles).subqueries.foldlM (addSubquery (t.visibleTo roles) d) []
      = t.subqueries.foldlM (addSubquery t d) [] := rfl
  rw [ofTableAs_eq, ofTableAs_eq, JoinPlan.ofTable_visibleTo, own, subqueries]
  cases JoinPlan.ofTable t d with
  | error e => rfl
  | ok joins =>
    cases (ownFields qualifier t d).foldlM (addField (columnTwice t)) [] with
    | error e => rfl
    | ok declared =>
      cases made : t.subqueries.foldlM (addSubquery t d) [] with
      | error e => rfl
      | ok fields =>
        -- The joins' columns are sorted by whether a base column shadows them, and roles do not change that.
        let r : Resolver :=
          { table := t, dialect := d, baseQualifier := qualifierOr qualifier t, joins, declared
            joined := [], shadowed := [], subqueries := fields }
        have shadowed : (r.restrict roles).joinFields.filter (r.restrict roles).shadows
            = (r.joinFields.filter r.shadows).map (Field.restrict roles) := by
          rw [joinFields_restrict, List.filter_map]
          exact congrArg _ (List.filter_congr fun f _ => shadows_restrict r f)
        have joined : ((r.restrict roles).joinFields.filter fun f => !(r.restrict roles).shadows f)
            = (r.joinFields.filter fun f => !r.shadows f).map (Field.restrict roles) := by
          rw [joinFields_restrict, List.filter_map]
          exact congrArg _ (List.filter_congr fun f _ => congrArg _ (shadows_restrict r f))
        have unchanged : fields.map (Field.restrict roles) = fields := map_restrict_subqueries made
        change Except.ok { r.restrict roles with
            joined := (r.restrict roles).joinFields.filter fun f => !(r.restrict roles).shadows f
            shadowed := (r.restrict roles).joinFields.filter (r.restrict roles).shadows
            subqueries := fields }
          = Except.ok { r.restrict roles with
            joined := (r.joinFields.filter fun f => !r.shadows f).map (Field.restrict roles)
            shadowed := (r.joinFields.filter r.shadows).map (Field.restrict roles)
            subqueries := fields.map (Field.restrict roles) }
        rw [joined, shadowed, unchanged]

theorem find?_restrict (name : Bytes) (fields : List Field) :
    find? name (fields.map (Field.restrict roles)) = (find? name fields).map (Field.restrict roles) := by
  unfold find?
  simp only [List.find?_map, Function.comp_def, Field.name_restrict]

theorem baseFields_restrict (r : Resolver) :
    (r.restrict roles).baseFields = r.baseFields.map (Field.restrict roles) := by
  unfold baseFields restrict
  simp only [List.filter_map, Function.comp_def, Field.source_restrict]

theorem computedFields_restrict (r : Resolver) :
    (r.restrict roles).computedFields = r.computedFields.map (Field.restrict roles) := by
  unfold computedFields restrict
  simp only [List.filter_map, Function.comp_def, Field.source_restrict]

theorem resolvePlain_restrict (r : Resolver) (name : Bytes) :
    (r.restrict roles).resolvePlain name = (r.resolvePlain name).map (Field.restrict roles) := by
  unfold resolvePlain
  rw [baseFields_restrict, computedFields_restrict]
  dsimp only [restrict]
  simp only [find?_restrict, Option.map_or]

theorem fields_restrict (r : Resolver) : (r.restrict roles).fields = r.fields.map (Field.restrict roles) := by
  unfold fields restrict
  simp only [List.map_append]

theorem resolveQualified_restrict (r : Resolver) (qualifier column : Bytes) :
    (r.restrict roles).resolveQualified qualifier column
      = (r.resolveQualified qualifier column).map (Field.restrict roles) := by
  unfold resolveQualified
  rw [fields_restrict, baseFields_restrict]
  dsimp only [restrict, Table.visibleTo]
  simp only [List.find?_map, Function.comp_def, Field.isTableColumn_restrict, Field.qualifier_restrict,
    Field.name_restrict, find?_restrict, Option.map_or]
  split_ifs <;> rfl

/-- A name finds the field that it found in the description as written, as the caller gets it. -/
theorem resolve_restrict (r : Resolver) (name : Bytes) :
    (r.restrict roles).resolve name = (r.resolve name).map (Field.restrict roles) := by
  unfold resolve
  rw [resolvePlain_restrict, Option.map_or]
  cases Bytes.cut Ascii.dot name with
  | none => rfl
  | some parts => exact congrArg _ (resolveQualified_restrict r parts.1 parts.2)

theorem known_restrict (r : Resolver) : (r.restrict roles).known = r.known.map (Field.restrict roles) := by
  unfold known restrict
  simp only [List.map_append]

end Resolver

/-! ## What a caller gets -/

namespace Join

mutual

theorem restrict_of_visible {j : Join} (h : ∀ c ∈ j.allColumns, c.isVisibleTo roles = true) :
    j.restrict roles = j := by
  cases j with
  | mk table tableAlias type condition columns joins =>
    rw [allColumns, List.forall_mem_append] at h
    have own : columns.map (Column.restrict roles) = columns :=
      (List.map_congr_left fun c mem => Column.restrict_of_visible (h.1 c mem)).trans (List.map_id columns)
    rw [restrict, own, restrictList_of_visible h.2]

theorem restrictList_of_visible {js : List Join} (h : ∀ c ∈ allColumnsOf js, c.isVisibleTo roles = true) :
    restrictList roles js = js := by
  cases js with
  | nil => rfl
  | cons j js =>
    rw [allColumnsOf, List.forall_mem_append] at h
    rw [restrictList, restrict_of_visible h.1, restrictList_of_visible h.2]

end

end Join

namespace Table

variable {t e : Table} {c : Context} {d : Dialect}

/-- Everyone gets the description as it was written if none of its columns is restricted. -/
theorem visibleTo_of_visible (h : ∀ c ∈ t.allColumns, c.isVisibleTo roles = true) : t.visibleTo roles = t := by
  have none : Column.invisibleNames roles t.allColumns = [] := by
    unfold Column.invisibleNames
    rw [List.map_eq_nil_iff, List.filter_eq_nil_iff]
    intro c mem
    rw [h c mem]
    exact Bool.false_ne_true
  unfold allColumns at h
  rw [List.forall_mem_append] at h
  have columns : t.columns.map (Column.restrict roles) = t.columns :=
    (List.map_congr_left fun c mem => Column.restrict_of_visible (h.1 c mem)).trans (List.map_id t.columns)
  have filters : (t.filters.filter fun f => !(f.kind == .dynamic && ([] : List Bytes).contains f.condition.field))
      = t.filters := by
    rw [List.filter_eq_self]
    intro f _
    rw [List.contains_nil, Bool.and_false]
    rfl
  have search : t.search.map (searchWithout []) = t.search := by
    cases t.search with
    | none => rfl
    | some s =>
      have fields : (s.fields.filter fun field => !([] : List Bytes).contains field) = s.fields :=
        List.filter_eq_self.mpr fun f _ => rfl
      rw [Option.map_some, searchWithout, fields]
  unfold visibleTo
  dsimp only
  rw [none, columns, Join.restrictList_of_visible h.2, filters, search]

theorem visibleTo_of_unrestricted (open' : t.hasRoleRestrictions = false) (roles : List Bytes) :
    t.visibleTo roles = t := by
  refine visibleTo_of_visible fun c mem => Column.isVisibleTo_of_not_isRestricted ?_
  exact Bool.eq_false_iff.mpr fun restricted =>
    Bool.eq_false_iff.mp open' (List.any_eq_true.mpr ⟨c, mem, restricted⟩)

/-- It makes no difference that the description is not derived where no column is restricted. -/
theorem effective_eq (t : Table) (c : Context) :
    t.effective c = (t.checkAccess c).map fun _ => t.visibleTo c.roles := by
  unfold effective
  cases t.checkAccess c with
  | error fault => rfl
  | ok _ =>
    cases restricted : t.hasRoleRestrictions with
    | true => rfl
    | false => exact congrArg Except.ok (visibleTo_of_unrestricted restricted c.roles).symm

/-- A caller who may use the table gets what its roles let be seen. -/
theorem eq_visibleTo_of_effective (h : t.effective c = .ok e) : e = t.visibleTo c.roles := by
  rw [effective_eq] at h
  cases admitted : t.checkAccess c with
  | error fault =>
    rw [admitted] at h
    cases h
  | ok _ =>
    rw [admitted] at h
    cases h
    rfl

/-- The fields of a statement for a caller. -/
theorem ofTableAs_visibleTo_eq_ok {qualifier : Bytes} {r : Resolver}
    (made : Resolver.ofTableAs qualifier t d = .ok r) :
    Resolver.ofTableAs qualifier (t.visibleTo roles) d = .ok (r.restrict roles) := by
  rw [Resolver.ofTableAs_visibleTo, made]
  rfl

theorem ofTable_visibleTo_eq_ok {r : Resolver} (made : Resolver.ofTable t d = .ok r) :
    Resolver.ofTable (t.visibleTo roles) d = .ok (r.restrict roles) := ofTableAs_visibleTo_eq_ok made

/-- The fields that a caller gets are those of the description as written, restricted by the caller's roles. -/
theorem fields_of_effective {qualifier : Bytes} {r : Resolver} (he : t.effective c = .ok e)
    (hr : Resolver.ofTableAs qualifier e d = .ok r) :
    ∃ written, Resolver.ofTableAs qualifier t d = .ok written ∧ r = written.restrict c.roles := by
  rw [eq_visibleTo_of_effective he, Resolver.ofTableAs_visibleTo] at hr
  cases made : Resolver.ofTableAs qualifier t d with
  | error fault =>
    rw [made] at hr
    cases hr
  | ok written =>
    rw [made] at hr
    cases hr
    exact ⟨written, rfl, rfl⟩

end Table

end TableQuery

import TableQuery.Access.Visibility
import TableQuery.Field.Resolver
import TableQuery.Proofs.Field.Forest
import TableQuery.Proofs.Statement.Correlation

/-!
# The fields of a description

What `Resolver.ofTableAs` makes of a description when it succeeds (`Resolver.Describes`), and what look-up may
return: a field of one of its four lists, by its own name.

## What is proved

`Describes.isOperand_of_resolve`: whatever name is looked up, the expression of the field that is found is one
operand, provided that the trusted SQL of the description closes what it opens. `Table.expressionTexts`
collects that SQL, and what a caller's roles hide does not change it. `resolvePlain_eq_some` and
`resolveQualified_eq_some`: a field is found by its own name only, bare or after a qualifier.
-/

namespace TableQuery

variable {strict : Prop}

/-! ## Trusted SQL of a description -/

/-- The trusted SQL in the expressions of a description's fields. -/
def Table.expressionTexts (t : Table) : List TrustedSql :=
  t.allColumns.filterMap Column.expression ++ t.subqueries.filterMap Subquery.filter

theorem Column.expression_restrict (roles : List Bytes) (c : Column) :
    (c.restrict roles).expression = c.expression := by
  unfold Column.restrict
  split_ifs <;> rfl

mutual

theorem Join.allColumns_restrict (roles : List Bytes) (j : Join) :
    (j.restrict roles).allColumns = j.allColumns.map (Column.restrict roles) := by
  cases j with
  | mk table tableAlias type condition columns joins =>
    rw [Join.restrict, Join.allColumns, Join.allColumns, Join.allColumnsOf_restrictList, List.map_append]

theorem Join.allColumnsOf_restrictList (roles : List Bytes) (js : List Join) :
    Join.allColumnsOf (Join.restrictList roles js)
      = (Join.allColumnsOf js).map (Column.restrict roles) := by
  cases js with
  | nil => rfl
  | cons j js =>
    rw [Join.restrictList, Join.allColumnsOf, Join.allColumnsOf, Join.allColumns_restrict,
      Join.allColumnsOf_restrictList, List.map_append]

end

/-- A caller gets the columns of the description, each as the caller may see it. -/
theorem Table.allColumns_visibleTo (t : Table) (roles : List Bytes) :
    (t.visibleTo roles).allColumns = t.allColumns.map (Column.restrict roles) := by
  unfold Table.allColumns
  rw [List.map_append, ← Join.allColumnsOf_restrictList]
  rfl

/-- What a caller may not see has its expression all the same. -/
theorem Table.expressionTexts_visibleTo (t : Table) (roles : List Bytes) :
    (t.visibleTo roles).expressionTexts = t.expressionTexts := by
  have expression : Column.expression ∘ Column.restrict roles = Column.expression :=
    funext (Column.expression_restrict roles)
  unfold Table.expressionTexts
  rw [allColumns_visibleTo, List.filterMap_map, expression]
  rfl

/-! ## Joined columns -/

namespace JoinPlan

/-- The columns of a plan come from these, each under a name of its own. -/
structure DrawsFrom (columns : List Column) (p : JoinPlan) : Prop where
  drawn : ∀ c ∈ p.columns, c.column ∈ columns
  distinct : (p.columns.map fun c => c.column.name).Nodup

/-- Every column of a plan is a column of a join. -/
theorem drawsFrom_ofTable {t : Table} {d : Dialect} {p : JoinPlan} (h : ofTable t d = .ok p) :
    p.DrawsFrom (Join.allColumnsOf t.joins) := by
  refine ⟨fun c mem => ?_, nodup_names h⟩
  rw [← t.columns_joinColumns, ← columns_ofTable h]
  exact List.mem_map_of_mem mem

end JoinPlan

/-! ## What the fields are made from -/

namespace Resolver

/-- The name that qualifies the base table's columns. -/
def qualifierOr (qualifier : Bytes) (t : Table) : Bytes := if qualifier.isEmpty then t.base else qualifier

/-- The fields of a description's own columns. -/
def ownFields (qualifier : Bytes) (t : Table) (d : Dialect) : List Field :=
  t.columns.map (Field.ofColumn d [qualifierOr qualifier t, t.base] (qualifierOr qualifier t))

/-- The fields of the columns of joins. -/
def joinFields (r : Resolver) : List Field :=
  r.joins.columns.map fun c => Field.ofColumn r.dialect [r.baseQualifier, r.table.base] c.qualifier c.column

/-- Whether a column of the base table has the name of a field. -/
def shadows (r : Resolver) (f : Field) : Bool :=
  r.declared.any fun g => g.source != .computed && g.name == f.name

/-- What `ofTableAs` makes of a description. -/
structure Describes (r : Resolver) (qualifier : Bytes) (t : Table) (d : Dialect) : Prop where
  table : r.table = t
  dialect : r.dialect = d
  baseQualifier : r.baseQualifier = qualifierOr qualifier t
  joins : JoinPlan.ofTable t d = .ok r.joins
  declared : (ownFields qualifier t d).foldlM (addField (columnTwice t)) [] = .ok r.declared
  joined : r.joined = r.joinFields.filter fun f => !r.shadows f
  shadowed : r.shadowed = r.joinFields.filter r.shadows
  subqueries : t.subqueries.foldlM (addSubquery t d) [] = .ok r.subqueries

theorem describes {r : Resolver} {qualifier : Bytes} {t : Table} {d : Dialect}
    (h : ofTableAs qualifier t d = .ok r) : r.Describes qualifier t d := by
  unfold ofTableAs at h
  obtain ⟨joins, hjoins, h⟩ := Checked.bind_eq_ok.mp h
  obtain ⟨declared, hdeclared, h⟩ := Checked.bind_eq_ok.mp h
  obtain ⟨subqueries, hsubqueries, h⟩ := Checked.bind_eq_ok.mp h
  cases h
  exact ⟨rfl, rfl, rfl, hjoins, hdeclared, rfl, rfl, hsubqueries⟩

/-- Fields with new names are added as they are. -/
theorem addFields_eq {twice : Bytes → Fault} {fields out : List Field}
    (h : fields.foldlM (addField twice) [] = .ok out) :
    out = fields ∧ (fields.map Field.name).Nodup := by
  have general (acc : List Field) (hacc : (acc.map Field.name).Nodup)
      (h : fields.foldlM (addField twice) acc = .ok out) :
      out = acc ++ fields ∧ ((acc ++ fields).map Field.name).Nodup := by
    clear * - hacc h
    induction fields generalizing acc with
    | nil =>
      cases h
      rw [List.append_nil]
      exact ⟨rfl, hacc⟩
    | cons f fields ih =>
      rw [List.foldlM_cons] at h
      obtain ⟨next, step, h⟩ := Checked.bind_eq_ok.mp h
      unfold addField at step
      split_ifs at step with taken
      cases step
      have fresh : ((acc ++ [f]).map Field.name).Nodup := by
        rw [List.map_append, List.nodup_append]
        refine ⟨hacc, List.nodup_singleton _, ?_⟩
        intro name mem other mem'
        rw [List.map_singleton, List.mem_singleton] at mem'
        obtain ⟨g, hg, rfl⟩ := List.mem_map.mp mem
        intro same
        apply taken
        rw [List.any_eq_true]
        exact ⟨g, hg, by rw [same, mem', beq_self_eq_true]⟩
      have rest := ih (acc ++ [f]) fresh h
      rw [List.append_assoc] at rest
      exact rest
  exact general [] List.nodup_nil h

/-- The fields of subqueries, in order. -/
theorem addSubqueries_eq {t : Table} {d : Dialect} {subqueries : List Subquery} {out : List Field}
    (h : subqueries.foldlM (addSubquery t d) [] = .ok out) :
    subqueries.mapM (Field.ofSubquery d) = .ok out := by
  have general (acc : List Field) (h : subqueries.foldlM (addSubquery t d) acc = .ok out) :
      ∃ fields, subqueries.mapM (Field.ofSubquery d) = .ok fields ∧ out = acc ++ fields := by
    clear * - h
    induction subqueries generalizing acc with
    | nil =>
      cases h
      exact ⟨[], rfl, (List.append_nil _).symm⟩
    | cons s rest ih =>
      rw [List.foldlM_cons] at h
      obtain ⟨next, step, h⟩ := Checked.bind_eq_ok.mp h
      unfold addSubquery at step
      split_ifs at step with taken
      obtain ⟨f, hf, step⟩ := Checked.bind_eq_ok.mp step
      cases step
      obtain ⟨fields, hfields, rfl⟩ := ih _ h
      refine ⟨f :: fields, ?_, by rw [List.append_assoc]; rfl⟩
      rw [List.mapM_cons, hf, hfields]
      rfl
  obtain ⟨fields, hfields, rfl⟩ := general [] h
  exact hfields

/-! ## Looking up -/

/-- Every field that look-up may return. -/
def known (r : Resolver) : List Field := r.declared ++ r.joined ++ r.shadowed ++ r.subqueries

theorem find?_eq_some {name : Bytes} {fields : List Field} {f : Field}
    (h : find? name fields = some f) : f ∈ fields ∧ f.name = name := by
  refine ⟨List.mem_of_find?_eq_some h, ?_⟩
  have named := List.find?_some h
  exact beq_iff_eq.mp named

theorem mem_known_of_declared {r : Resolver} {f : Field} (h : f ∈ r.declared) : f ∈ r.known := by
  simp only [known, List.mem_append]
  exact .inl (.inl (.inl h))

/-- A field is found by its own name. -/
theorem resolvePlain_eq_some {r : Resolver} {name : Bytes} {f : Field}
    (h : r.resolvePlain name = some f) : f ∈ r.known ∧ f.name = name := by
  unfold resolvePlain at h
  simp only [Option.or_eq_some_iff] at h
  rcases h with h | ⟨-, h | ⟨-, h | ⟨-, h⟩⟩⟩
  · obtain ⟨mem, named⟩ := find?_eq_some h
    exact ⟨mem_known_of_declared (List.mem_of_mem_filter mem), named⟩
  · obtain ⟨mem, named⟩ := find?_eq_some h
    simp only [known, List.mem_append]
    exact ⟨.inl (.inl (.inr mem)), named⟩
  · obtain ⟨mem, named⟩ := find?_eq_some h
    exact ⟨mem_known_of_declared (List.mem_of_mem_filter mem), named⟩
  · obtain ⟨mem, named⟩ := find?_eq_some h
    simp only [known, List.mem_append]
    exact ⟨.inr mem, named⟩

/-- A field is found by its own name after a qualifier. -/
theorem resolveQualified_eq_some {r : Resolver} {qualifier column : Bytes} {f : Field}
    (h : r.resolveQualified qualifier column = some f) : f ∈ r.known ∧ f.name = column := by
  unfold resolveQualified at h
  simp only [Option.or_eq_some_iff] at h
  rcases h with h | ⟨-, h | ⟨-, h⟩⟩
  · have meant := List.find?_some h
    simp only [Bool.and_eq_true, beq_iff_eq] at meant
    have mem := List.mem_of_find?_eq_some h
    simp only [fields, List.mem_append] at mem
    simp only [known, List.mem_append]
    refine ⟨?_, meant.2⟩
    rcases mem with (mem | mem) | mem
    · exact .inl (.inl (.inl mem))
    · exact .inl (.inl (.inr mem))
    · exact .inr mem
  · have meant := List.find?_some h
    simp only [Bool.and_eq_true, beq_iff_eq] at meant
    have mem := List.mem_of_find?_eq_some h
    simp only [known, List.mem_append]
    exact ⟨.inl (.inr mem), meant.2⟩
  · split_ifs at h
    obtain ⟨mem, named⟩ := find?_eq_some h
    exact ⟨mem_known_of_declared (List.mem_of_mem_filter mem), named⟩

theorem mem_of_resolve {r : Resolver} {name : Bytes} {f : Field} (h : r.resolve name = some f) :
    f ∈ r.known := by
  unfold resolve at h
  simp only [Option.or_eq_some_iff, Option.bind_eq_some_iff] at h
  rcases h with h | ⟨-, _, -, h⟩
  · exact (resolvePlain_eq_some h).1
  · exact (resolveQualified_eq_some h).1

theorem resolve_of_require {r : Resolver} {name purpose : Bytes} {f : Field}
    (h : r.require name purpose = .ok f) : r.resolve name = some f := by
  unfold require at h
  split at h
  · next found =>
    cases h
    exact found
  · cases h

/-! ## Expressions -/

theorem isOperand_ofColumn {d : Dialect} {baseNames : List Bytes} {table : Bytes} {c : Column}
    (trusted : ∀ s, c.expression = some s → s.Closes strict) :
    (Field.ofColumn d baseNames table c).expression.IsOperand strict := by
  unfold Field.ofColumn
  split_ifs
  · unfold Field.ofComputed
    cases expression : c.expression with
    | some s => exact Fragment.isOperand_trusted (trusted s expression)
    | none =>
      have null : (Fragment.text "NULL").Spells strict [Token.keyword .null] :=
        Fragment.Spells.text (lex_eq_some_iff.mp rfl) rfl
      exact null.isOperand rfl rfl
  · exact Fragment.isOperand_identifier _ _

theorem isOperand_ofSubquery {d : Dialect} {s : Subquery} {f : Field}
    (h : Field.ofSubquery d s = .ok f) (trusted : ∀ t, s.filter = some t → t.Closes strict) :
    f.expression.IsOperand strict := by
  unfold Field.ofSubquery at h
  cases mode : s.mode with
  | first =>
    rw [mode] at h
    cases h
    exact (Fragment.Spells.text Lexes.nil rfl).isOperand rfl rfl
  | count =>
    rw [mode] at h
    obtain ⟨e, he, h⟩ := Checked.bind_eq_ok.mp h
    cases h
    exact Subquery.isOperand_toSql he (by rw [mode]; exact SubqueryMode.noConfusion) trusted
  | «exists» =>
    rw [mode] at h
    obtain ⟨e, he, h⟩ := Checked.bind_eq_ok.mp h
    cases h
    exact Subquery.isOperand_toSql he (by rw [mode]; exact SubqueryMode.noConfusion) trusted

variable {r : Resolver} {qualifier : Bytes} {t : Table} {d : Dialect}

/-- What holds of the field of each column and of each subquery holds of every field that look-up may return. -/
theorem Describes.forall_known (hr : r.Describes qualifier t d) {P : Field → Prop}
    (column : ∀ c ∈ t.allColumns, ∀ baseNames table, P (Field.ofColumn d baseNames table c))
    (subquery : ∀ s ∈ t.subqueries, ∀ f, Field.ofSubquery d s = .ok f → P f) : ∀ f ∈ r.known, P f := by
  intro f mem
  have joined (mem : f ∈ r.joinFields) : P f := by
    obtain ⟨c, hc, rfl⟩ := List.mem_map.mp mem
    rw [hr.dialect]
    exact column _ (List.mem_append_right _ ((JoinPlan.drawsFrom_ofTable hr.joins).drawn c hc)) _ _
  simp only [known, List.mem_append] at mem
  rcases mem with ((mem | mem) | mem) | mem
  · rw [(addFields_eq hr.declared).1] at mem
    obtain ⟨c, hc, rfl⟩ := List.mem_map.mp mem
    exact column c (List.mem_append_left _ hc) _ _
  · rw [hr.joined] at mem
    exact joined (List.mem_of_mem_filter mem)
  · rw [hr.shadowed] at mem
    exact joined (List.mem_of_mem_filter mem)
  · obtain ⟨s, hs, step⟩ := Checked.exists_of_mem_mapM (addSubqueries_eq hr.subqueries) mem
    exact subquery s hs f step

/-- The expression of every field is one operand. -/
theorem Describes.isOperand (hr : r.Describes qualifier t d)
    (trusted : ∀ s ∈ t.expressionTexts, s.Closes strict) {f : Field} (hf : f ∈ r.known) :
    f.expression.IsOperand strict := by
  refine hr.forall_known (P := fun f => f.expression.IsOperand strict) ?_ ?_ f hf
  · intro c mem _ _
    refine isOperand_ofColumn fun s hs => trusted s ?_
    exact List.mem_append_left _ (List.mem_filterMap.mpr ⟨c, mem, hs⟩)
  · intro s mem f made
    refine isOperand_ofSubquery made fun u hu => trusted u ?_
    exact List.mem_append_right _ (List.mem_filterMap.mpr ⟨s, mem, hu⟩)

/-- Whatever name is looked up, the expression of the field that is found is one operand. -/
theorem Describes.isOperand_of_resolve (hr : r.Describes qualifier t d)
    (trusted : ∀ s ∈ t.expressionTexts, s.Closes strict) {name : Bytes} {f : Field}
    (h : r.resolve name = some f) : f.expression.IsOperand strict :=
  hr.isOperand trusted (mem_of_resolve h)

end Resolver

end TableQuery

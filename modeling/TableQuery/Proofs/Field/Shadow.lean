import TableQuery.Proofs.Field.Resolver

/-!
# Fields of one name

Two fields that look-up returns may have one name: a column of the base table, by the name alone, and the column
of a join that it shadows, by the name after its qualifier. There is no other such pair.

## What is proved

`Resolver.Describes.eq_or_shadows`: fields of one name are the same, or one shadows the other.
-/

namespace TableQuery

namespace Resolver

variable {r : Resolver} {qualifier : Bytes} {t : Table} {d : Dialect} {f g : Field} {name : Bytes}

/-- A column of the base table has the name of a join's column. -/
structure Shadows (r : Resolver) (f g : Field) : Prop where
  base : f ∈ r.baseFields
  shadowed : g ∈ r.shadowed
  name : f.name = g.name

/-! ## Finding by name -/

theorem find?_name {fields : List Field} (distinct : (fields.map Field.name).Nodup) (mem : f ∈ fields) :
    find? f.name fields = some f := by
  induction fields with
  | nil => cases mem
  | cons g rest ih =>
    rw [List.map_cons, List.nodup_cons] at distinct
    unfold find?
    rw [List.find?_cons]
    rcases List.mem_cons.mp mem with rfl | mem
    · rw [beq_self_eq_true]
    · have other : (g.name == f.name) = false := by
        rw [beq_eq_false_iff_ne]
        intro same
        apply distinct.1
        rw [same]
        exact List.mem_map_of_mem mem
      rw [other]
      exact ih distinct.2 mem

theorem find?_eq_none {fields : List Field} : find? name fields = none ↔ ∀ f ∈ fields, f.name ≠ name := by
  unfold find?
  rw [List.find?_eq_none]
  simp only [beq_iff_eq]

/-! ## The lists of a resolver -/

theorem ofColumn_name (d : Dialect) (baseNames : List Bytes) (table : Bytes) (c : Column) :
    (Field.ofColumn d baseNames table c).name = c.name := by
  unfold Field.ofColumn
  split_ifs
  · rfl
  · rfl

theorem source_ne_computed {baseNames : List Bytes} {table : Bytes} {c : Column}
    (read : (Field.ofColumn d baseNames table c).isTableColumn = true) :
    (Field.ofColumn d baseNames table c).source ≠ .computed := by
  unfold Field.ofColumn at read ⊢
  split_ifs at read ⊢ with computed
  · have unread : (Field.ofComputed c).isTableColumn = !c.computed := rfl
    rw [unread, computed] at read
    cases read
  · unfold Field.ofTableColumn
    dsimp only
    split_ifs <;> exact FieldSource.noConfusion

theorem isTableColumn_ofSubquery {s : Subquery} (made : Field.ofSubquery d s = .ok f) : f.isTableColumn = false := by
  unfold Field.ofSubquery at made
  split at made
  · cases made
    rfl
  · obtain ⟨expression, -, made⟩ := Checked.bind_eq_ok.mp made
    cases made
    rfl

theorem shadows_eq_true : r.shadows f = true ↔ ∃ g ∈ r.baseFields, g.name = f.name := by
  unfold shadows baseFields
  simp only [List.any_eq_true, Bool.and_eq_true, beq_iff_eq, List.mem_filter, and_assoc]

namespace Describes

variable (hr : r.Describes qualifier t d)
include hr

theorem nodup_declared : (r.declared.map Field.name).Nodup := by
  have added := addFields_eq hr.declared
  rw [added.1]
  exact added.2

theorem nodup_joinFields : (r.joinFields.map Field.name).Nodup := by
  have names : r.joinFields.map Field.name = r.joins.columns.map fun c => c.column.name := by
    unfold joinFields
    rw [List.map_map]
    exact List.map_congr_left fun c _ => ofColumn_name _ _ _ _
  rw [names]
  exact (JoinPlan.drawsFrom_ofTable hr.joins).distinct

theorem nodup_joined : (r.joined.map Field.name).Nodup := by
  rw [hr.joined]
  exact hr.nodup_joinFields.sublist (List.filter_sublist.map _)

theorem nodup_shadowed : (r.shadowed.map Field.name).Nodup := by
  rw [hr.shadowed]
  exact hr.nodup_joinFields.sublist (List.filter_sublist.map _)

theorem nodup_baseFields : (r.baseFields.map Field.name).Nodup :=
  hr.nodup_declared.sublist (List.filter_sublist.map _)

theorem mem_baseFields (mem : f ∈ r.declared) (read : f.isTableColumn = true) : f ∈ r.baseFields := by
  refine List.mem_filter.mpr ⟨mem, ?_⟩
  rw [(addFields_eq hr.declared).1] at mem
  obtain ⟨c, -, rfl⟩ := List.mem_map.mp mem
  exact bne_iff_ne.mpr (source_ne_computed read)

theorem not_isTableColumn (mem : f ∈ r.subqueries) : f.isTableColumn = false := by
  obtain ⟨s, -, made⟩ := Checked.exists_of_mem_mapM (addSubqueries_eq hr.subqueries) mem
  exact isTableColumn_ofSubquery made

/-- What look-up returns is found by its bare name, or is shadowed. -/
theorem resolvePlain_or_mem_shadowed (h : r.resolve name = some f) :
    r.resolvePlain f.name = some f ∨ f ∈ r.shadowed := by
  unfold resolve at h
  simp only [Option.or_eq_some_iff, Option.bind_eq_some_iff] at h
  rcases h with h | ⟨-, ⟨prefix', column⟩, -, h⟩
  · left
    rw [(resolvePlain_eq_some h).2]
    exact h
  unfold resolveQualified at h
  simp only [Option.or_eq_some_iff] at h
  rcases h with h | ⟨-, h | ⟨-, h⟩⟩
  · left
    have mem := List.mem_of_find?_eq_some h
    have meant := List.find?_some h
    simp only [Bool.and_eq_true] at meant
    have read : f.isTableColumn = true := meant.1.1
    -- The column is the base table's, or one of a join that nothing shadows; what is computed is no column.
    unfold fields at mem
    rcases List.mem_append.mp mem with mem | mem
    · rcases List.mem_append.mp mem with mem | mem
      · unfold resolvePlain
        rw [find?_name hr.nodup_baseFields (hr.mem_baseFields mem read), Option.some_or]
      · have unshadowed := mem
        rw [hr.joined, List.mem_filter] at unshadowed
        have free : find? f.name r.baseFields = none := by
          rw [find?_eq_none]
          intro g hg same
          have shadowed := shadows_eq_true.mpr ⟨g, hg, same⟩
          rw [shadowed] at unshadowed
          exact absurd unshadowed.2 Bool.false_ne_true
        unfold resolvePlain
        rw [free, Option.none_or, find?_name hr.nodup_joined mem, Option.some_or]
    · rw [hr.not_isTableColumn mem] at read
      cases read
  · exact .inr (List.mem_of_find?_eq_some h)
  · left
    split_ifs at h
    have named := (find?_eq_some h).2
    unfold resolvePlain
    rw [named, h, Option.some_or]

/-- A shadowed field's bare name finds the column of the base table that shadows it. -/
theorem resolvePlain_of_mem_shadowed (mem : g ∈ r.shadowed) :
    ∃ f, r.resolvePlain g.name = some f ∧ r.Shadows f g := by
  have shadowed := mem
  rw [hr.shadowed, List.mem_filter] at shadowed
  obtain ⟨f, hf, same⟩ := shadows_eq_true.mp shadowed.2
  refine ⟨f, ?_, hf, mem, same⟩
  unfold resolvePlain
  rw [← same, find?_name hr.nodup_baseFields hf, Option.some_or]

omit hr in
theorem exists_resolvePlain_of_mem_declared (mem : f ∈ r.declared) : ∃ g, r.resolvePlain f.name = some g := by
  have split : f ∈ r.baseFields ∨ f ∈ r.computedFields := by
    by_cases computed : f.source = .computed
    · exact .inr (List.mem_filter.mpr ⟨mem, beq_iff_eq.mpr computed⟩)
    · exact .inl (List.mem_filter.mpr ⟨mem, bne_iff_ne.mpr computed⟩)
  by_contra none
  rw [← Option.isSome_iff_exists, Option.not_isSome_iff_eq_none] at none
  unfold resolvePlain at none
  simp only [Option.or_eq_none_iff, find?_eq_none] at none
  rcases split with mem | mem
  · exact none.1 f mem rfl
  · exact none.2.2.1 f mem rfl

theorem exists_resolvePlain_of_mem_joinFields (mem : f ∈ r.joinFields) :
    ∃ g, r.resolvePlain f.name = some g := by
  by_cases shadowed : r.shadows f = true
  · have mem : f ∈ r.shadowed := by
      rw [hr.shadowed]
      exact List.mem_filter.mpr ⟨mem, shadowed⟩
    obtain ⟨g, found, -⟩ := hr.resolvePlain_of_mem_shadowed mem
    exact ⟨g, found⟩
  · have mem : f ∈ r.joined := by
      rw [hr.joined, List.mem_filter, Bool.not_eq_true']
      exact ⟨mem, Bool.eq_false_iff.mpr shadowed⟩
    by_contra none
    rw [← Option.isSome_iff_exists, Option.not_isSome_iff_eq_none] at none
    unfold resolvePlain at none
    simp only [Option.or_eq_none_iff, find?_eq_none] at none
    exact none.2.1 f mem rfl

/-- Every column's name finds a field. -/
theorem exists_resolvePlain {c : Column} (mem : c ∈ t.allColumns) : ∃ f, r.resolvePlain c.name = some f := by
  rcases List.mem_append.mp mem with mem | mem
  · rw [← ofColumn_name d [qualifierOr qualifier t, t.base] (qualifierOr qualifier t) c]
    apply exists_resolvePlain_of_mem_declared
    rw [(addFields_eq hr.declared).1]
    exact List.mem_map_of_mem mem
  · rw [← t.columns_joinColumns, ← JoinPlan.columns_ofTable hr.joins] at mem
    obtain ⟨e, he, rfl⟩ := List.mem_map.mp mem
    rw [← ofColumn_name r.dialect [r.baseQualifier, r.table.base] e.qualifier e.column]
    exact hr.exists_resolvePlain_of_mem_joinFields (List.mem_map_of_mem he)

/-- Two fields that look-up returns have one name only if they are the same, or one shadows the other. -/
theorem eq_or_shadows {m n : Bytes} (hf : r.resolve m = some f) (hg : r.resolve n = some g)
    (same : f.name = g.name) : f = g ∨ r.Shadows f g ∨ r.Shadows g f := by
  rcases hr.resolvePlain_or_mem_shadowed hf with plain | mem
  · rcases hr.resolvePlain_or_mem_shadowed hg with plain' | mem'
    · left
      rw [same, plain'] at plain
      exact (Option.some.inj plain).symm
    · right; left
      obtain ⟨h, found, shadows⟩ := hr.resolvePlain_of_mem_shadowed mem'
      rw [← same, plain] at found
      rw [Option.some.inj found]
      exact shadows
  · rcases hr.resolvePlain_or_mem_shadowed hg with plain' | mem'
    · right; right
      obtain ⟨h, found, shadows⟩ := hr.resolvePlain_of_mem_shadowed mem
      rw [same, plain'] at found
      rw [Option.some.inj found]
      exact shadows
    · left
      have first := find?_name hr.nodup_shadowed mem
      rw [same, find?_name hr.nodup_shadowed mem'] at first
      exact (Option.some.inj first).symm

end Describes

end Resolver

end TableQuery

import TableQuery.Proofs.Field.Shadow
import TableQuery.Proofs.Statement.Selection

/-!
# Fields that share an output name

A description's own columns have different names, and so have the columns of its joins and its subqueries. Across
the three lists only one clash is looked for: a column of a join gives way to one of the base table. A computed
column may share its name with a column of a join, and a subquery with any column.

## What is proved

`Resolver.Describes.names_nodup_iff`: the names of chosen fields are different exactly if no two of the fields clash
in one of these two ways (`Resolver.Collides`). `Resolver.Describes.resolve_of_mem_joined` and the lemmas beside it say
which fields are found by their own names all the same.
-/

namespace TableQuery

namespace Resolver

variable {r : Resolver} {qualifier : Bytes} {t : Table} {d : Dialect} {f g : Field}

/-- Two exposed fields have one name: a computed column and a column of a join, or a column and a subquery. -/
inductive Collides (r : Resolver) (f g : Field) : Prop where
  | computed (own : f ∈ r.computedFields) (joined : g ∈ r.joined) (same : f.name = g.name)
  | subquery (column : f ∈ r.declared ++ r.joined) (subquery : g ∈ r.subqueries) (same : f.name = g.name)

theorem Collides.same (h : r.Collides f g) : f.name = g.name := by
  cases h with
  | computed _ _ same => exact same
  | subquery _ _ same => exact same

/-! ## Names of subqueries -/

theorem ofSubquery_name {s : Subquery} (made : Field.ofSubquery d s = .ok f) : f.name = s.name := by
  unfold Field.ofSubquery at made
  split at made
  · cases made
    rfl
  · obtain ⟨expression, -, made⟩ := Checked.bind_eq_ok.mp made
    cases made
    rfl

theorem nodup_addSubqueries {subqueries : List Subquery} {kept out : List Field}
    (distinct : (kept.map Field.name).Nodup) (made : subqueries.foldlM (addSubquery t d) kept = .ok out) :
    (out.map Field.name).Nodup := by
  induction subqueries generalizing kept with
  | nil =>
    cases made
    exact distinct
  | cons s rest ih =>
    rw [List.foldlM_cons] at made
    obtain ⟨next, step, made⟩ := Checked.bind_eq_ok.mp made
    unfold addSubquery at step
    split_ifs at step with taken
    obtain ⟨f, hf, step⟩ := Checked.bind_eq_ok.mp step
    cases step
    refine ih ?_ made
    rw [List.map_append, List.map_singleton, List.nodup_append]
    refine ⟨distinct, List.nodup_singleton _, fun name mem other mem' same => taken ?_⟩
    obtain ⟨k, hk, rfl⟩ := List.mem_map.mp mem
    rw [List.any_eq_true]
    rw [List.mem_singleton] at mem'
    exact ⟨k, hk, by rw [same, mem', ofSubquery_name hf, beq_self_eq_true]⟩

/-! ## Found by their own names -/

namespace Describes

variable (hr : r.Describes qualifier t d)
include hr

theorem nodup_subqueries : (r.subqueries.map Field.name).Nodup := by
  have start : (([] : List Field).map Field.name).Nodup := List.nodup_nil
  exact nodup_addSubqueries start hr.subqueries

/-- No column of the base table has the name of an exposed column of a join. -/
theorem name_ne_of_mem_joined (base : f ∈ r.baseFields) (joined : g ∈ r.joined) : f.name ≠ g.name := by
  intro same
  rw [hr.joined, List.mem_filter, Bool.not_eq_true'] at joined
  have shadowed := shadows_eq_true.mpr ⟨f, base, same⟩
  rw [joined.2] at shadowed
  cases shadowed

theorem eq_of_mem_declared (hf : f ∈ r.declared) (hg : g ∈ r.declared) (same : g.name = f.name) : g = f :=
  List.inj_on_of_nodup_map hr.nodup_declared hg hf same

theorem eq_of_mem_joined (hf : f ∈ r.joined) (hg : g ∈ r.joined) (same : g.name = f.name) : g = f :=
  List.inj_on_of_nodup_map hr.nodup_joined hg hf same

theorem resolve_of_mem_baseFields (mem : f ∈ r.baseFields) : r.resolve f.name = some f := by
  unfold resolve resolvePlain
  rw [find?_name hr.nodup_baseFields mem, Option.some_or, Option.some_or]

theorem resolve_of_mem_joined (mem : f ∈ r.joined) : r.resolve f.name = some f := by
  have free : find? f.name r.baseFields = none :=
    find?_eq_none.mpr fun g hg same => hr.name_ne_of_mem_joined hg mem same
  unfold resolve resolvePlain
  rw [free, Option.none_or, find?_name hr.nodup_joined mem, Option.some_or, Option.some_or]

/-- A computed column is found where no column of a join has its name. -/
theorem resolve_of_mem_computedFields (mem : f ∈ r.computedFields) (free : ∀ g ∈ r.joined, g.name ≠ f.name) :
    r.resolve f.name = some f := by
  obtain ⟨own, computed⟩ := List.mem_filter.mp mem
  have unread : find? f.name r.baseFields = none := by
    rw [find?_eq_none]
    intro g hg same
    obtain ⟨declared, read⟩ := List.mem_filter.mp hg
    rw [hr.eq_of_mem_declared own declared same, bne_iff_ne] at read
    exact read (beq_iff_eq.mp computed)
  have distinct : (r.computedFields.map Field.name).Nodup :=
    hr.nodup_declared.sublist (List.filter_sublist.map _)
  unfold resolve resolvePlain
  rw [unread, Option.none_or, find?_eq_none.mpr free, Option.none_or, find?_name distinct mem, Option.some_or,
    Option.some_or]

/-- A subquery is found where no exposed column has its name. -/
theorem resolve_of_mem_subqueries (mem : f ∈ r.subqueries) (free : ∀ g ∈ r.declared ++ r.joined, g.name ≠ f.name) :
    r.resolve f.name = some f := by
  rw [List.forall_mem_append] at free
  have unread : find? f.name r.baseFields = none :=
    find?_eq_none.mpr fun g hg => free.1 g (List.mem_of_mem_filter hg)
  have uncomputed : find? f.name r.computedFields = none :=
    find?_eq_none.mpr fun g hg => free.1 g (List.mem_of_mem_filter hg)
  unfold resolve resolvePlain
  rw [unread, Option.none_or, find?_eq_none.mpr free.2, Option.none_or, uncomputed, Option.none_or,
    find?_name hr.nodup_subqueries mem, Option.some_or]

end Describes

/-! ## Chosen fields -/

/-- A field of a list that has the name of an earlier one clashes with it. -/
def SharesByClash (r : Resolver) (fields : List Field) : Prop :=
  fields.Pairwise fun f g => f.name = g.name → r.Collides f g

theorem sharesByClash_of_nodup {fields : List Field} (distinct : (fields.map Field.name).Nodup) :
    r.SharesByClash fields :=
  (List.pairwise_map.mp distinct).imp fun different same => absurd same different

theorem SharesByClash.nodup_iff {fields : List Field} (h : r.SharesByClash fields) :
    (fields.map Field.name).Nodup ↔ fields.Pairwise fun f g => ¬r.Collides f g := by
  unfold List.Nodup
  rw [List.pairwise_map]
  constructor
  · exact List.Pairwise.imp fun different clash => different clash.same
  · exact fun clear => h.imp₂ (fun _ _ shared clear same => clear (shared same)) clear

namespace Describes

variable (hr : r.Describes qualifier t d)
include hr

theorem sharesByClash_fields : r.SharesByClash r.fields := by
  have columns : r.SharesByClash (r.declared ++ r.joined) := by
    refine List.pairwise_append.mpr
      ⟨sharesByClash_of_nodup hr.nodup_declared, sharesByClash_of_nodup hr.nodup_joined, ?_⟩
    intro f own g joined same
    by_cases computed : f.source = .computed
    · exact .computed (List.mem_filter.mpr ⟨own, beq_iff_eq.mpr computed⟩) joined same
    · have base : f ∈ r.baseFields := List.mem_filter.mpr ⟨own, bne_iff_ne.mpr computed⟩
      exact absurd same (hr.name_ne_of_mem_joined base joined)
  exact List.pairwise_append.mpr ⟨columns, sharesByClash_of_nodup hr.nodup_subqueries,
    fun f column g subquery same => .subquery column subquery same⟩

/-- However the fields of a response are chosen, those that share a name clash: the `id` that is put in front has a
name that no chosen field has. -/
theorem sharesByClash_chosenFields (select : List Bytes) : r.SharesByClash (r.chosenFields select) := by
  have selectable : r.SharesByClash r.selectable := hr.sharesByClash_fields.filter _
  unfold chosenFields
  split_ifs
  · exact selectable
  split
  · exact selectable
  · have chosen := selectable.filter fun f => select.contains f.name
    unfold withId
    cases found : find? idName r.fields with
    | none => exact chosen
    | some id =>
      dsimp only
      split_ifs with wanted
      · rw [Bool.and_eq_true, Bool.not_eq_true', List.any_eq_false] at wanted
        refine List.pairwise_cons.mpr ⟨fun g mem same => ?_, chosen⟩
        rw [(find?_eq_some found).2] at same
        exact absurd (beq_iff_eq.mpr same.symm) (wanted.2 g mem)
      · exact chosen

/-- The chosen fields have different names exactly if no two of them clash. -/
theorem names_nodup_iff (select : List Bytes) :
    ((r.chosenFields select).map Field.name).Nodup
      ↔ (r.chosenFields select).Pairwise fun f g => ¬r.Collides f g :=
  (hr.sharesByClash_chosenFields select).nodup_iff

end Describes

end Resolver

end TableQuery

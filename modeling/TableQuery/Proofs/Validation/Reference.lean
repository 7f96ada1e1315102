import TableQuery.Proofs.Statement.Condition
import TableQuery.Proofs.Validation.Column
import TableQuery.Statement.Aggregate

/-!
# What validation says of references

A validated description refers to fields that there are. What else a reference needs is checked for some of them:
that the field of a filter, an aggregate or a group has one value in each row, and that a key of the walk down a tree
is a column of the base table.

## What is proved

`Table.refers_of_validate`: the fields of a validated description can be made for the dialect that has every feature,
and they are what the description refers to (`Table.Refers`). `Table.pageSizes_of_validate`: its page sizes are in
order.
-/

namespace TableQuery

/-! ## References -/

namespace Table

/-- What a description refers to, by its fields. -/
structure Refers (t : Table) (r : Resolver) : Prop where
  filters : ∀ f ∈ t.filters, ∃ g, r.resolve f.condition.field = some g ∧ g.scalar = true
  backend : ∀ b ∈ t.backendConditions, ∃ g, r.resolve b.field = some g
  filterGroups : ∀ c ∈ FilterTree.leavesOf t.filterGroups, ∃ g, r.resolve c.field = some g
  aggregations : ∀ a ∈ t.aggregations, ∃ g, r.scalar? a.field = some g
  groupFields : ∀ g, t.groupBy = some g → ∀ name ∈ g.fields, ∃ f, r.scalar? name = some f
  having : ∀ g, t.groupBy = some g → ∀ h ∈ g.having, ∃ a ∈ t.aggregations, a.name = h.name
  depth : ∀ w, t.walk = some w → ¬w.maxDepth < 1
  walkKeys : ∀ w, t.walk = some w → ∀ key ∈ [w.parentKey, w.childKey], ∃ f, r.resolve key = some f ∧ f.source = .base
  softDelete : t.softDelete.enabled = true → ∃ f, r.resolve t.softDelete.field = some f
  tenant : t.tenant.enabled = true → ∃ f, r.resolve t.tenant.field = some f

end Table

namespace Validation

variable {r : Resolver} {path name : Bytes}

theorem of_when {wrong : Bool} {message : Bytes} (h : Problem.when wrong path message = []) : wrong = false := by
  unfold Problem.when at h
  split_ifs at h with w
  exact Bool.eq_false_iff.mpr w

theorem resolve_of_fieldAnd {check : Field → List Problem} (h : fieldAnd r path name check = []) :
    ∃ f, r.resolve name = some f ∧ check f = [] := by
  unfold fieldAnd at h
  cases found : r.resolve name with
  | none =>
    rw [found] at h
    cases h
  | some f =>
    rw [found] at h
    exact ⟨f, rfl, h⟩

theorem resolve_of_field (h : field r path name = []) : ∃ f, r.resolve name = some f := by
  obtain ⟨f, found, -⟩ := resolve_of_fieldAnd h
  exact ⟨f, found⟩

theorem scalar?_of_fieldAnd {message : Bytes} (h : fieldAnd r path name
    (fun f => Problem.when (!f.scalar) path message) = []) : ∃ f, r.scalar? name = some f := by
  obtain ⟨f, found, scalar⟩ := resolve_of_fieldAnd h
  refine ⟨f, Option.filter_eq_some_iff.mpr ⟨found, ?_⟩⟩
  have wrong := of_when scalar
  rwa [Bool.not_eq_false'] at wrong

/-- Each element of a list was checked at its place. -/
theorem of_flatten_mapIdx {α : Type} {check : Nat → α → List Problem} {l : List α}
    (h : (l.mapIdx check).flatten = []) {a : α} (mem : a ∈ l) : ∃ i, check i a = [] := by
  obtain ⟨i, bound, rfl⟩ := List.getElem_of_mem mem
  rw [List.flatten_eq_nil_iff] at h
  exact ⟨i, h _ (List.mem_mapIdx.mpr ⟨i, bound, rfl⟩)⟩

mutual

theorem resolve_of_filterTree {tree : FilterTree} (h : filterTree r path tree = []) :
    ∀ c ∈ tree.leaves, ∃ g, r.resolve c.field = some g := by
  cases tree with
  | leaf c =>
    rw [filterTree] at h
    rw [FilterTree.leaves, List.forall_mem_singleton]
    exact resolve_of_field h
  | group op children =>
    rw [filterTree] at h
    rw [FilterTree.leaves]
    exact resolve_of_filterTrees h

theorem resolve_of_filterTrees {trees : List FilterTree} (h : filterTrees r path trees = []) :
    ∀ c ∈ FilterTree.leavesOf trees, ∃ g, r.resolve c.field = some g := by
  cases trees with
  | nil => exact List.forall_mem_nil _
  | cons tree trees =>
    rw [filterTrees] at h
    obtain ⟨first, rest⟩ := List.append_eq_nil_iff.mp h
    rw [FilterTree.leavesOf, List.forall_mem_append]
    exact ⟨resolve_of_filterTree first, resolve_of_filterTrees rest⟩

end

theorem scalar?_of_aggregationsFrom {i : Nat} {seen : List Bytes} {aggregations : List Aggregation}
    (h : aggregationsFrom r i seen aggregations = []) :
    ∀ a ∈ aggregations, a.name.isEmpty = false ∧ ∃ g, r.scalar? a.field = some g := by
  induction aggregations generalizing i seen with
  | nil => exact List.forall_mem_nil _
  | cons a rest ih =>
    rw [aggregationsFrom] at h
    obtain ⟨own, rest⟩ := List.append_eq_nil_iff.mp h
    obtain ⟨named, found⟩ := List.append_eq_nil_iff.mp own
    rw [List.forall_mem_cons]
    refine ⟨⟨?_, scalar?_of_fieldAnd found⟩, ih rest⟩
    split_ifs at named with empty
    exact Bool.eq_false_iff.mpr empty

end Validation

namespace Table

open Validation

variable {t : Table} {catalog : Option Catalog}

theorem refers_of_references {r : Resolver} (described : r.table = t) (h : references r = []) : t.Refers r := by
  subst described
  unfold references at h
  obtain ⟨h, scope⟩ := List.append_eq_nil_iff.mp h
  obtain ⟨h, walked⟩ := List.append_eq_nil_iff.mp h
  obtain ⟨h, aggregated⟩ := List.append_eq_nil_iff.mp h
  obtain ⟨h, -⟩ := List.append_eq_nil_iff.mp h
  obtain ⟨h, -⟩ := List.append_eq_nil_iff.mp h
  obtain ⟨filtered, -⟩ := List.append_eq_nil_iff.mp h
  unfold Validation.filters at filtered
  obtain ⟨filtered, grouped⟩ := List.append_eq_nil_iff.mp filtered
  obtain ⟨filtered, backed⟩ := List.append_eq_nil_iff.mp filtered
  unfold scopes at scope
  obtain ⟨scope, -⟩ := List.append_eq_nil_iff.mp scope
  obtain ⟨deleted, tenants⟩ := List.append_eq_nil_iff.mp scope
  unfold Validation.aggregations at aggregated
  obtain ⟨aggregated, grouping⟩ := List.append_eq_nil_iff.mp aggregated
  have groups (g : GroupBy) (hg : r.table.groupBy = some g) : Validation.grouping r g = [] := by
    rw [hg] at grouping
    exact grouping
  have walks (w : TreeWalk) (hw : r.table.walk = some w) : Validation.walk r w = [] := by
    rw [hw] at walked
    exact walked
  refine {
    filters := ?_, backend := ?_, filterGroups := ?_, aggregations := ?_, groupFields := ?_, having := ?_
    depth := ?_, walkKeys := ?_, softDelete := ?_, tenant := ?_ }
  · intro f mem
    obtain ⟨i, checked⟩ := of_flatten_mapIdx filtered mem
    unfold Validation.filter at checked
    obtain ⟨g, found, scalar⟩ := resolve_of_fieldAnd (List.append_eq_nil_iff.mp checked).1
    have wrong := of_when scalar
    rw [Bool.not_eq_false'] at wrong
    exact ⟨g, found, wrong⟩
  · intro b mem
    obtain ⟨i, checked⟩ := of_flatten_mapIdx backed mem
    exact resolve_of_field checked
  · intro c mem
    obtain ⟨tree, htree, mem⟩ := FilterTree.mem_leavesOf.mp mem
    obtain ⟨i, checked⟩ := of_flatten_mapIdx grouped htree
    exact resolve_of_filterTree checked c mem
  · exact fun a mem => (scalar?_of_aggregationsFrom aggregated a mem).2
  · intro g hg name mem
    have checked := groups g hg
    unfold Validation.grouping at checked
    have fields := (List.append_eq_nil_iff.mp (List.append_eq_nil_iff.mp checked).1).2
    rw [List.flatMap_eq_nil_iff] at fields
    exact scalar?_of_fieldAnd (fields name mem)
  · intro g hg h mem
    have checked := groups g hg
    unfold Validation.grouping at checked
    have conditions := (List.append_eq_nil_iff.mp checked).2
    rw [List.flatMap_eq_nil_iff] at conditions
    have known := of_when (conditions h mem)
    rw [Bool.not_eq_false', List.contains_iff_mem] at known
    obtain ⟨a, ha, named⟩ := List.mem_map.mp (List.mem_of_mem_filter known)
    exact ⟨a, ha, named⟩
  · intro w hw
    have checked := walks w hw
    unfold Validation.walk at checked
    simp only [List.append_eq_nil_iff, and_assoc] at checked
    have deep := of_when checked.1
    rwa [decide_eq_false_iff_not] at deep
  · intro w hw
    have checked := walks w hw
    unfold Validation.walk at checked
    simp only [List.append_eq_nil_iff, and_assoc] at checked
    have key {path key : Bytes} (h : walkKey r path key = []) : ∃ f, r.resolve key = some f ∧ f.source = .base := by
      obtain ⟨f, found, source⟩ := resolve_of_fieldAnd h
      have base := of_when source
      rw [bne_eq_false_iff_eq] at base
      exact ⟨f, found, base⟩
    rw [List.forall_mem_cons, List.forall_mem_singleton]
    exact ⟨key checked.2.1, key checked.2.2.1⟩
  · intro on
    rw [if_pos on] at deleted
    exact resolve_of_field deleted
  · intro on
    rw [if_pos on] at tenants
    exact resolve_of_field tenants

/-- The fields of a validated description can be made for the dialect that has every feature, and no reference to them
is wrong. -/
theorem references_of_validate (h : t.validate catalog = .ok ()) :
    ∃ r, Resolver.ofTable t .unknown = .ok r ∧ references r = [] := by
  have none := problems_of_validate h
  unfold Validation.problems at none
  have checked := (List.append_eq_nil_iff.mp none).2
  cases made : Resolver.ofTable t .unknown with
  | error fault =>
    rw [made] at checked
    cases checked
  | ok r =>
    rw [made] at checked
    exact ⟨r, rfl, checked⟩

/-- The fields of a validated description can be made for the dialect that has every feature, and are what the
description refers to. -/
theorem refers_of_validate (h : t.validate catalog = .ok ()) :
    ∃ r, Resolver.ofTable t .unknown = .ok r ∧ t.Refers r := by
  obtain ⟨r, made, checked⟩ := references_of_validate h
  exact ⟨r, made, refers_of_references (Resolver.describes made).table checked⟩

/-- The page sizes of a validated description: the usual one is at least one, and no more than the greatest. -/
theorem pageSizes_of_validate (h : t.validate catalog = .ok ()) :
    1 ≤ t.pagination.defaultPageSize ∧ t.pagination.defaultPageSize ≤ t.pagination.maxPageSize := by
  obtain ⟨r, made, checked⟩ := references_of_validate h
  obtain rfl := (Resolver.describes made).table
  unfold references at checked
  simp only [List.append_eq_nil_iff, and_assoc] at checked
  obtain ⟨-, -, -, paged, -⟩ := checked
  unfold Validation.pagination at paged
  obtain ⟨usual, greatest⟩ := List.append_eq_nil_iff.mp paged
  exact ⟨Int64.not_lt.mp (of_decide_eq_false (of_when usual)), Int64.not_lt.mp (of_decide_eq_false (of_when greatest))⟩

end Table

end TableQuery

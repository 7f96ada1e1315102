import TableQuery.Proofs.Field.Collision
import TableQuery.Proofs.Json.Members
import TableQuery.Proofs.Statement.ActiveOrder
import TableQuery.Proofs.Statement.Aggregate
import TableQuery.Proofs.Validation.Reference

/-!
# The output columns of a statement

A row comes back by the output names of the selection, so two items of one name leave the value of one of them. The
names are checked list by list: those of a description's columns, of the columns of joins, of subqueries and of
aggregates. What is missing is a check of one list against another, and against the names that statements add
themselves: the boundary values of a page by cursor and the number of rows beside aggregates.

## What is proved

`Plan.nodup_outputs_iff`: the output names are different exactly if every row gives each item its own value.
`Table.outputs_distinct_iff`: for a validated description, when the output names of each statement are different.
-/

namespace TableQuery

/-! ## Rows read back by name -/

namespace Plan

/-- The output names of a statement. -/
def outputs (p : Plan) : List Bytes := p.select.map SelectItem.name

/-- The row in which the items of the selection have these values. -/
def row (p : Plan) (values : List Json) : Json := .record (p.outputs.zip values)

theorem nodup_outputs_iff {p : Plan} :
    p.outputs.Nodup ↔ ∀ values : List Json, values.length = p.outputs.length →
      ∀ output ∈ p.outputs.zip values, (p.row values).get? output.1 = some output.2 := by
  constructor
  · intro distinct values length output mem
    refine Json.get?_record ?_ mem
    rw [List.map_fst_zip length.ge]
    exact distinct
  · intro reads
    -- Numbered values tell two items of one name apart.
    rw [List.nodup_iff_pairwise_ne, List.pairwise_iff_getElem]
    intro i j hi hj before same
    let values : List Json := (List.range p.outputs.length).map fun k : Nat => .int (k : Int)
    have read (k : Nat) (hk : k < p.outputs.length) : (p.row values).get? p.outputs[k] = some (.int k) := by
      refine reads values (by simp [values]) (p.outputs[k], .int k) (List.mem_iff_getElem.mpr ⟨k, ?_, ?_⟩)
      · simp [values, hk]
      · simp [values]
    have clash := read i hi
    rw [same, read j hj, Option.some.injEq, Json.int.injEq] at clash
    omega

end Plan

/-! ## Names of the parts -/

namespace Resolver

variable {r : Resolver}

theorem name_of_selectionOf {f : Field} {item : SelectItem} (made : r.selectionOf f = .ok item) :
    item.name = f.name := by
  unfold selectionOf at made
  split at made
  · split_ifs at made
    · cases made
      rfl
    · obtain ⟨expression, -, made⟩ := Checked.bind_eq_ok.mp made
      cases made
      rfl
  · cases made
    rfl

theorem names_of_selections {fields : List Field} {items : List SelectItem}
    (made : fields.mapM r.selectionOf = .ok items) : items.map SelectItem.name = fields.map Field.name := by
  have each := Checked.mapM_eq_ok.mp made
  clear made
  induction each with
  | nil => rfl
  | cons step _ ih => rw [List.map_cons, List.map_cons, name_of_selectionOf step, ih]

theorem names_of_calls {aggregations : List Aggregation} {items : List SelectItem}
    (calls : List.Forall₂ r.IsCallOf aggregations items) :
    items.map SelectItem.name = aggregations.map Aggregation.name := by
  induction calls with
  | nil => rfl
  | cons call _ ih =>
    obtain ⟨f, -, rfl⟩ := call
    rw [List.map_cons, List.map_cons, ih]

end Resolver

namespace Keyset

theorem boundaryName_injective : Function.Injective boundaryName :=
  fun _ _ same => List.append_cancel_left same

theorem nodup_foldl_keepFirst {fields kept : List Field} (distinct : (kept.map Field.name).Nodup) :
    ((fields.foldl keepFirst kept).map Field.name).Nodup := by
  induction fields generalizing kept with
  | nil => exact distinct
  | cons f rest ih =>
    rw [List.foldl_cons]
    refine ih ?_
    unfold keepFirst
    split_ifs with taken
    · exact distinct
    · rw [List.map_append, List.map_singleton, List.nodup_append]
      refine ⟨distinct, List.nodup_singleton _, fun name mem other mem' same => taken ?_⟩
      obtain ⟨k, hk, rfl⟩ := List.mem_map.mp mem
      rw [List.mem_singleton] at mem'
      exact List.any_eq_true.mpr ⟨k, hk, beq_iff_eq.mpr (same.trans mem')⟩

theorem names_of_sortsBy {terms : List OrderTerm} {fields : List Field}
    (sorted : List.Forall₂ SortsBy terms fields) : terms.map OrderTerm.field = fields.map Field.name := by
  induction sorted with
  | nil => rfl
  | cons head _ ih => rw [List.map_cons, List.map_cons, head.1, ih]

/-- The terms of an order are about different fields. -/
theorem nodup_activeOrder {r : Resolver} {requested : List SortKey} {order : List OrderTerm}
    (made : activeOrder r requested = .ok order) : (order.map OrderTerm.field).Nodup := by
  rw [names_of_sortsBy (sortsBy_activeOrder made)]
  have start : (([] : List Field).map Field.name).Nodup := List.nodup_nil
  exact nodup_foldl_keepFirst start

end Keyset

/-- The boundary values of a page are of different fields. -/
theorem Resolver.nodup_boundary {r : Resolver} {p : Params} {select : List SelectItem} {condition : Fragment}
    {plan : Plan} {paging : Paging} (made : r.dataPlan p select condition = .ok (plan, paging)) :
    (paging.boundary.map OrderTerm.field).Nodup := by
  unfold dataPlan at made
  cases cursor : p.cursor with
  | none =>
    rw [cursor] at made
    cases made
    exact List.nodup_nil
  | some token =>
    rw [cursor] at made
    obtain ⟨keyset, hkeyset, made⟩ := Checked.bind_eq_ok.mp made
    cases made
    exact Keyset.nodup_activeOrder (Keyset.activeOrder_of_ofRequest hkeyset)

namespace Validation

/-- The names of checked aggregates are different, and none was seen before. -/
theorem nodup_of_aggregationsFrom {r : Resolver} {i : Nat} {seen : List Bytes} {aggregations : List Aggregation}
    (h : aggregationsFrom r i seen aggregations = []) :
    (aggregations.map Aggregation.name).Nodup ∧ ∀ a ∈ aggregations, a.name ∉ seen := by
  induction aggregations generalizing i seen with
  | nil => exact ⟨List.nodup_nil, List.forall_mem_nil _⟩
  | cons a rest ih =>
    rw [aggregationsFrom] at h
    obtain ⟨own, rest⟩ := List.append_eq_nil_iff.mp h
    obtain ⟨distinct, unseen⟩ := ih rest
    have fresh : a.name ∉ seen := by
      have named := (List.append_eq_nil_iff.mp own).1
      split_ifs at named
      have wrong := of_when named
      rwa [← List.contains_iff_mem, Bool.not_eq_true]
    rw [List.map_cons, List.nodup_cons, List.forall_mem_cons]
    refine ⟨⟨fun mem => ?_, distinct⟩, fresh, fun b mem seen => unseen b mem (List.mem_cons_of_mem _ seen)⟩
    obtain ⟨b, hb, same⟩ := List.mem_map.mp mem
    exact unseen b hb (List.mem_cons.mpr (.inl same))

end Validation

namespace Table

variable {t : Table} {catalog : Option Catalog} {d : Dialect} {p : Params} {c : Context} {clock : Instant}

/-- The aggregates of a validated description have different names. -/
theorem nodup_aggregations_of_validate (h : t.validate catalog = .ok ()) :
    (t.aggregations.map Aggregation.name).Nodup := by
  have none := problems_of_validate h
  unfold Validation.problems at none
  have checked := (List.append_eq_nil_iff.mp none).2
  cases made : Resolver.ofTable t .unknown with
  | error fault =>
    rw [made] at checked
    cases checked
  | ok r =>
    rw [made] at checked
    change Validation.references r = [] at checked
    unfold Validation.references at checked
    obtain ⟨checked, -⟩ := List.append_eq_nil_iff.mp checked
    obtain ⟨checked, -⟩ := List.append_eq_nil_iff.mp checked
    obtain ⟨-, aggregated⟩ := List.append_eq_nil_iff.mp checked
    unfold Validation.aggregations at aggregated
    rw [(Resolver.describes made).table] at aggregated
    exact (Validation.nodup_of_aggregationsFrom (List.append_eq_nil_iff.mp aggregated).1).1

/-! ## The parts of a compiled request -/

/-- The statements of a request by what they are made from: the fields that the caller gets, the items that these
are selected by, and the condition. -/
structure Compiles (t : Table) (d : Dialect) (p : Params) (c : Context) (compiled : Compiled) (r : Resolver)
    (items : List SelectItem) (condition : Fragment) : Prop where
  written : Resolver.ofTable t d = .ok r
  effective : t.effective c = .ok (t.visibleTo c.roles)
  selected : ((r.restrict c.roles).chosenFields p.select).mapM (r.restrict c.roles).selectionOf = .ok items
  data : (r.restrict c.roles).dataPlan p items condition = .ok (compiled.data, compiled.paging)
  count : compiled.count = (r.restrict c.roles).countPlan condition
  aggregations : (r.restrict c.roles).aggregationPlan condition = .ok compiled.aggregations
  outputFields : compiled.outputFields = ((r.restrict c.roles).chosenFields p.select).map Field.name

theorem exists_compiles {compiled : Compiled} (made : t.compile d p c clock = .ok compiled) :
    ∃ r items condition, t.Compiles d p c compiled r items condition := by
  unfold compile at made
  obtain ⟨e, he, made⟩ := Checked.bind_eq_ok.mp made
  obtain ⟨s, hs, made⟩ := Checked.bind_eq_ok.mp made
  obtain ⟨r, hr, rfl⟩ := fields_of_effective he hs
  obtain ⟨condition, -, made⟩ := Checked.bind_eq_ok.mp made
  obtain ⟨items, hitems, made⟩ := Checked.bind_eq_ok.mp made
  obtain ⟨⟨data, paging⟩, hdata, made⟩ := Checked.bind_eq_ok.mp made
  obtain ⟨aggregations, haggregations, made⟩ := Checked.bind_eq_ok.mp made
  cases made
  rw [eq_visibleTo_of_effective he] at he
  exact ⟨r, items, condition, hr, he, hitems, hdata, rfl, haggregations, rfl⟩

namespace Compiles

variable {compiled : Compiled} {r : Resolver} {items : List SelectItem} {condition : Fragment}
  (h : t.Compiles d p c compiled r items condition)
include h

/-- The names of the data: the chosen fields, then the boundary values of a page by cursor. -/
theorem outputs_data :
    compiled.data.outputs = ((r.restrict c.roles).chosenFields p.select).map Field.name
      ++ compiled.paging.boundary.map fun term => Keyset.boundaryName term.field := by
  unfold Plan.outputs
  rw [(Resolver.select_of_dataPlan h.data).1, List.map_append, Resolver.names_of_selections h.selected, List.map_map]
  rfl

/-- The names of the data are different exactly if no two chosen fields clash, and none is named like a boundary
value. -/
theorem nodup_outputs_data :
    compiled.data.outputs.Nodup ↔
      ((r.restrict c.roles).chosenFields p.select).Pairwise (fun f g => ¬(r.restrict c.roles).Collides f g)
      ∧ ∀ f ∈ (r.restrict c.roles).chosenFields p.select, ∀ term ∈ compiled.paging.boundary,
        f.name ≠ Keyset.boundaryName term.field := by
  have boundary : (compiled.paging.boundary.map fun term => Keyset.boundaryName term.field).Nodup := by
    have distinct := (Resolver.nodup_boundary h.data).map Keyset.boundaryName_injective
    rwa [List.map_map] at distinct
  rw [h.outputs_data, List.nodup_append, (Resolver.describes (ofTable_visibleTo_eq_ok h.written)).names_nodup_iff,
    and_iff_right boundary, List.forall_mem_map]
  simp only [List.forall_mem_map]

theorem outputs_aggregations {plan : Plan} (mem : plan ∈ compiled.aggregations) :
    plan.outputs = t.aggregations.map Aggregation.name ++ [Resolver.totalCountName] := by
  obtain ⟨select, hselect, rfl⟩ :=
    Resolver.eq_of_mem_aggregationPlan h.aggregations (Option.mem_toList.mpr mem)
  unfold Resolver.aggregateSelection at hselect
  rw [Resolver.aggregates_restrict] at hselect
  obtain ⟨calls, hcalls, hselect⟩ := Checked.bind_eq_ok.mp hselect
  cases hselect
  have names := Resolver.names_of_calls (Resolver.aggregates_eq_ok hcalls)
  rw [(Resolver.describes h.written).table] at names
  unfold Plan.outputs
  rw [List.map_append, names]
  rfl

/-- The names of the aggregates are different exactly if none is that of the number of rows. -/
theorem nodup_outputs_aggregations (distinct : (t.aggregations.map Aggregation.name).Nodup) {plan : Plan}
    (mem : plan ∈ compiled.aggregations) :
    plan.outputs.Nodup ↔ ∀ a ∈ t.aggregations, a.name ≠ Resolver.totalCountName := by
  rw [h.outputs_aggregations mem, List.nodup_append, and_iff_right distinct,
    and_iff_right (List.nodup_singleton _), List.forall_mem_map]
  simp only [List.forall_mem_singleton]

end Compiles

/-! ## Grouped statements -/

/-- The names of a grouped statement: the fields to group by, then the aggregates. -/
theorem outputs_of_compileGrouped {plan : Plan} (made : t.compileGrouped d p c clock = .ok plan) :
    ∃ r g fields, Resolver.ofTable t d = .ok r ∧ t.groupBy = some g
      ∧ List.Forall₂ (fun name f => r.scalar? name = some f) g.fields fields
      ∧ plan.outputs = fields.map Field.name ++ t.aggregations.map Aggregation.name := by
  unfold compileGrouped at made
  obtain ⟨e, he, made⟩ := Checked.bind_eq_ok.mp made
  dsimp only at made
  have grouped : e.groupBy = t.groupBy := by
    rw [eq_visibleTo_of_effective he]
    rfl
  rw [grouped] at made
  cases described : t.groupBy with
  | none =>
    rw [described] at made
    cases made
  | some g =>
    rw [described] at made
    obtain ⟨s, hs, made⟩ := Checked.bind_eq_ok.mp made
    obtain ⟨r, hr, rfl⟩ := fields_of_effective he hs
    obtain ⟨grouping, hgrouping, made⟩ := Checked.bind_eq_ok.mp made
    obtain ⟨condition, -, made⟩ := Checked.bind_eq_ok.mp made
    obtain ⟨order, -, made⟩ := Checked.bind_eq_ok.mp made
    cases made
    have table := (Resolver.describes hr).table
    rw [Resolver.grouping_restrict] at hgrouping
    obtain ⟨fields, calls, hfields, hcalls, select, -⟩ :=
      (Resolver.grouping_eq_ok (table.symm ▸ described) hgrouping).outputs
    refine ⟨r, g, fields, hr, rfl, hfields, ?_⟩
    unfold Plan.outputs
    rw [← table, ← Resolver.names_of_calls hcalls, select, List.map_append, List.map_map]
    rfl

/-- When the output names of the statements of a validated description are different. Those of the count always are;
those of the data unless two chosen fields clash or one is named like a boundary value; those of the aggregates
unless one is named like the number of rows; those of a grouped statement unless a name is grouped by twice or is
an aggregate's. -/
theorem outputs_distinct_iff (valid : t.validate catalog = .ok ()) :
    (∀ compiled, t.compile d p c clock = .ok compiled → ∃ r, Resolver.ofTable t d = .ok r
      ∧ (compiled.data.outputs.Nodup ↔
        ((r.restrict c.roles).chosenFields p.select).Pairwise (fun f g => ¬(r.restrict c.roles).Collides f g)
        ∧ ∀ f ∈ (r.restrict c.roles).chosenFields p.select, ∀ term ∈ compiled.paging.boundary,
          f.name ≠ Keyset.boundaryName term.field)
      ∧ compiled.count.outputs.Nodup
      ∧ ∀ plan ∈ compiled.aggregations,
        (plan.outputs.Nodup ↔ ∀ a ∈ t.aggregations, a.name ≠ Resolver.totalCountName))
    ∧ ∀ plan, t.compileGrouped d p c clock = .ok plan → ∃ r g fields, Resolver.ofTable t d = .ok r
      ∧ t.groupBy = some g ∧ List.Forall₂ (fun name f => r.scalar? name = some f) g.fields fields
      ∧ (plan.outputs.Nodup ↔
        (fields.map Field.name).Nodup ∧ ∀ f ∈ fields, ∀ a ∈ t.aggregations, f.name ≠ a.name) := by
  have distinct := nodup_aggregations_of_validate valid
  constructor
  · intro compiled made
    obtain ⟨r, items, condition, h⟩ := exists_compiles made
    refine ⟨r, h.written, h.nodup_outputs_data, ?_, fun plan mem => h.nodup_outputs_aggregations distinct mem⟩
    rw [h.count]
    exact List.nodup_singleton _
  · intro plan made
    obtain ⟨r, g, fields, hr, hg, hfields, names⟩ := outputs_of_compileGrouped made
    refine ⟨r, g, fields, hr, hg, hfields, ?_⟩
    rw [names, List.nodup_append, and_iff_right distinct, List.forall_mem_map]
    simp only [List.forall_mem_map]

/-- Orders with a computed total beside the total of their shipments, and an aggregate named like the number of
rows. -/
def shipped : Table where
  name := "orders"
  base := "orders"
  columns := [{ name := "id", type := .number }, { name := "total", computed := true, expression := some ⟨"price"⟩ }]
  joins := [.mk "shipments" "s" .left (.columns "id" "order_id") [{ name := "total" }] []]
  aggregations := [{ name := "_totalCount", type := .sum, field := "id" }]

/-- The statement for the orders has two outputs of the name `total`, and the one for their aggregates two of the name
`_totalCount`. -/
theorem outputs_distinct_iff_shipped :
    ∃ compiled r, shipped.validate none = .ok () ∧ shipped.compile .postgresql {} {} ⟨0⟩ = .ok compiled
      ∧ Resolver.ofTable shipped .postgresql = .ok r
      ∧ compiled.data.outputs = ["id", "total", "total"]
      ∧ ¬((r.restrict []).chosenFields []).Pairwise (fun f g => ¬(r.restrict []).Collides f g)
      ∧ ∃ plan ∈ compiled.aggregations, ¬plan.outputs.Nodup := by
  obtain ⟨compiled, made⟩ : ∃ compiled, shipped.compile .postgresql {} {} ⟨0⟩ = .ok compiled := ⟨_, rfl⟩
  have valid : shipped.validate none = .ok () := rfl
  obtain ⟨inAll, -⟩ := @outputs_distinct_iff shipped none .postgresql {} {} ⟨0⟩ valid
  obtain ⟨r, hr, data, -, aggregates⟩ := inAll compiled made
  have computed : (shipped.compile .postgresql {} {} ⟨0⟩).map (fun c => (c.data.outputs, c.paging.boundary))
      = .ok (["id", "total", "total"], []) := rfl
  rw [made] at computed
  obtain ⟨outputs, boundary⟩ := Prod.mk.inj (Except.ok.inj computed)
  have summed : (shipped.compile .postgresql {} {} ⟨0⟩).map (fun c => c.aggregations.isSome) = .ok true := rfl
  rw [made] at summed
  obtain ⟨plan, mem⟩ := Option.isSome_iff_exists.mp (Except.ok.inj summed)
  refine ⟨compiled, r, valid, made, hr, outputs, fun clear => ?_, plan, mem, fun distinct => ?_⟩
  · have distinct := data.mpr ⟨clear, by rw [boundary]; exact fun _ _ => List.forall_mem_nil _⟩
    rw [outputs] at distinct
    exact absurd distinct (by decide +kernel)
  · exact (aggregates plan mem).mp distinct _ List.mem_cons_self rfl

end Table

end TableQuery

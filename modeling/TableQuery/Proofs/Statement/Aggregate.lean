import TableQuery.Proofs.Access.Visibility
import TableQuery.Proofs.Statement.Compiled

/-!
# What aggregates are built on

An aggregate is a call on the expression of the field that its description names, and so is what a grouped
statement groups by and what it requires of its groups. A field is named by the author of the description; whether
the caller may see its column is not asked.

## What is proved

`Table.aggregates_as_written`: whoever asks, the outputs of the aggregates and of the groups are those of the
description as it was written, call by call. What the caller's roles hide takes nothing away from them.
-/

namespace TableQuery

variable {roles : List Bytes} {t : Table} {d : Dialect} {r : Resolver}

/-- The call of an aggregate on a field. -/
def Aggregation.call (a : Aggregation) (f : Field) : Fragment :=
  (Fragment.text (a.type.name ++ [Ascii.leftParen]) ++ f.expression).add ")"

namespace Resolver

/-! ## Roles change no aggregate -/

theorem scalar?_restrict (r : Resolver) (name : Bytes) :
    (r.restrict roles).scalar? name = (r.scalar? name).map (Field.restrict roles) := by
  unfold scalar?
  rw [resolve_restrict]
  cases r.resolve name with
  | none => rfl
  | some f =>
    simp only [Option.map_some, Option.filter_some, Field.scalar_restrict]
    split_ifs <;> rfl

theorem aggregate_restrict (r : Resolver) (a : Aggregation) : (r.restrict roles).aggregate a = r.aggregate a := by
  unfold aggregate
  rw [scalar?_restrict]
  cases r.scalar? a.field with
  | none => rfl
  | some f => simp only [Option.map_some, Field.expression_restrict]

theorem aggregates_restrict (r : Resolver) : (r.restrict roles).aggregates = r.aggregates := by
  unfold aggregates
  simp only [aggregate_restrict]
  rfl

theorem having_restrict (r : Resolver) : (r.restrict roles).having = r.having := by
  have condition : (r.restrict roles).havingCondition = r.havingCondition := by
    funext h
    unfold havingCondition
    simp only [aggregate_restrict]
    rfl
  unfold having
  rw [condition]
  rfl

theorem groupField_restrict (r : Resolver) (name : Bytes) :
    (r.restrict roles).groupField name = (r.groupField name).map (Field.restrict roles) := by
  unfold groupField
  rw [scalar?_restrict]
  cases r.scalar? name with
  | none => rfl
  | some f => rfl

/-- What is grouped by is selected by its name and its expression, which no role changes. -/
theorem grouping_restrict (r : Resolver) : (r.restrict roles).grouping = r.grouping := by
  have described : (r.restrict roles).table.groupBy = r.table.groupBy := rfl
  unfold grouping
  rw [described, aggregates_restrict, having_restrict]
  cases r.table.groupBy with
  | none => rfl
  | some g =>
    dsimp only
    rw [Checked.mapM_eq_map (groupField_restrict r) g.fields]
    cases g.fields.mapM r.groupField with
    | error e => rfl
    | ok fields =>
      simp only [Except.map, bind, Except.bind, List.map_map, Function.comp_def, Field.name_restrict,
        Field.expression_restrict]

/-- There is no plan of aggregates exactly if the description has none. -/
theorem aggregationPlan_eq_none {condition : Fragment} {plans : Option Plan}
    (h : r.aggregationPlan condition = .ok plans) : plans = none ↔ r.table.aggregations = [] := by
  unfold aggregationPlan at h
  by_cases empty : r.table.aggregations.isEmpty = true
  · rw [if_pos empty] at h
    cases h
    exact ⟨fun _ => List.isEmpty_iff.mp empty, fun _ => rfl⟩
  · rw [if_neg empty] at h
    obtain ⟨select, -, h⟩ := Checked.bind_eq_ok.mp h
    cases h
    constructor
    · intro none
      cases none
    · intro none
      exact absurd (List.isEmpty_iff.mpr none) empty

/-! ## The calls -/

/-- An output of an aggregate: the call of the aggregate on the field that it names. -/
def IsCallOf (r : Resolver) (a : Aggregation) (item : SelectItem) : Prop :=
  ∃ f, r.scalar? a.field = some f ∧ item = { name := a.name, expression := a.call f }

theorem aggregate_eq_ok {a : Aggregation} {g : Fragment} (h : r.aggregate a = .ok g) :
    ∃ f, r.scalar? a.field = some f ∧ g = a.call f := by
  unfold aggregate at h
  cases found : r.scalar? a.field with
  | none =>
    rw [found] at h
    cases h
  | some f =>
    rw [found] at h
    cases h
    exact ⟨f, rfl, rfl⟩

theorem aggregates_eq_ok {items : List SelectItem} (h : r.aggregates = .ok items) :
    List.Forall₂ r.IsCallOf r.table.aggregations items := by
  refine (Checked.mapM_eq_ok.mp h).imp fun a item made => ?_
  obtain ⟨g, called, made⟩ := Checked.bind_eq_ok.mp made
  cases made
  obtain ⟨f, found, rfl⟩ := aggregate_eq_ok called
  exact ⟨f, found, rfl⟩

/-- A condition on groups compares the call of the first aggregate of its name with a bound value. -/
def IsConditionOf (r : Resolver) (h : HavingCondition) (condition : Fragment) : Prop :=
  ∃ a f, r.table.aggregations.find? (fun a => a.name == h.name) = some a ∧ r.scalar? a.field = some f
    ∧ condition = h.op.apply (a.call f) (Fragment.value h.value) r.dialect

theorem havingCondition_eq_ok {h : HavingCondition} {condition : Fragment}
    (made : r.havingCondition h = .ok condition) : r.IsConditionOf h condition := by
  unfold havingCondition at made
  obtain ⟨a, named, made⟩ := Checked.bind_eq_ok.mp made
  obtain ⟨g, called, made⟩ := Checked.bind_eq_ok.mp made
  cases made
  obtain ⟨f, found, rfl⟩ := aggregate_eq_ok called
  unfold findAggregation at named
  cases first : r.table.aggregations.find? (fun a => a.name == h.name) with
  | none =>
    rw [first] at named
    cases named
  | some b =>
    rw [first] at named
    cases named
    exact ⟨a, f, first, found, rfl⟩

/-- The outputs of a grouped statement: the fields to group by, then the aggregates, and the conditions on groups. -/
structure Groups (r : Resolver) (g : GroupBy) (select : List SelectItem) (groupBy : List Fragment)
    (having : Fragment) : Prop where
  outputs : ∃ fields items, List.Forall₂ (fun name f => r.scalar? name = some f) g.fields fields
    ∧ List.Forall₂ r.IsCallOf r.table.aggregations items
    ∧ select = fields.map (fun f => { name := f.name, expression := f.expression }) ++ items
    ∧ groupBy = fields.map Field.expression
  conditions : ∃ conditions, List.Forall₂ r.IsConditionOf g.having conditions ∧ having = .all conditions

theorem groupField_eq_ok {name : Bytes} {f : Field} (h : r.groupField name = .ok f) : r.scalar? name = some f := by
  unfold groupField at h
  cases found : r.scalar? name with
  | none =>
    rw [found] at h
    cases h
  | some g =>
    rw [found] at h
    cases h
    rfl

theorem grouping_eq_ok {g : GroupBy} {made : Grouping} (described : r.table.groupBy = some g)
    (h : r.grouping = .ok made) : r.Groups g made.select made.groupBy made.having := by
  unfold grouping at h
  rw [described] at h
  obtain ⟨fields, hfields, h⟩ := Checked.bind_eq_ok.mp h
  obtain ⟨items, hitems, h⟩ := Checked.bind_eq_ok.mp h
  obtain ⟨condition, hcondition, h⟩ := Checked.bind_eq_ok.mp h
  cases h
  constructor
  · exact ⟨fields, items, (Checked.mapM_eq_ok.mp hfields).imp fun _ _ => groupField_eq_ok,
      aggregates_eq_ok hitems, rfl, rfl⟩
  · unfold having at hcondition
    rw [described] at hcondition
    obtain ⟨conditions, hconditions, hcondition⟩ := Checked.bind_eq_ok.mp hcondition
    cases hcondition
    exact ⟨conditions, (Checked.mapM_eq_ok.mp hconditions).imp fun _ _ => havingCondition_eq_ok, rfl⟩

end Resolver

namespace Table

variable {p : Params} {c : Context} {clock : Instant}

/-- The aggregates of an answer, and the outputs of a grouped statement, are those of the description as it was
written. Whoever the caller is, an answer has the call of every aggregate on the field that it names, and the number
of rows; a grouped statement has each field to group by, the call of every aggregate, and every condition on
groups. So what is computed from a column reaches each caller who may use the table, whether or not the caller may
see the column, exactly where the description names the column. -/
theorem aggregates_as_written :
    (∀ compiled, t.compile d p c clock = .ok compiled → ∃ r, Resolver.ofTable t d = .ok r
      ∧ (compiled.aggregations = none ↔ t.aggregations = [])
      ∧ ∀ plan ∈ compiled.aggregations, plan.groupBy = [] ∧ plan.having = .empty
        ∧ ∃ items, List.Forall₂ r.IsCallOf t.aggregations items
          ∧ plan.select = items ++ [{ name := Resolver.totalCountName, expression := .text "count(*)" }])
    ∧ ∀ plan, t.compileGrouped d p c clock = .ok plan → ∃ r g, Resolver.ofTable t d = .ok r
      ∧ t.groupBy = some g ∧ r.Groups g plan.select plan.groupBy plan.having := by
  constructor
  · intro compiled made
    unfold compile at made
    obtain ⟨e, he, made⟩ := Checked.bind_eq_ok.mp made
    obtain ⟨s, hs, made⟩ := Checked.bind_eq_ok.mp made
    obtain ⟨r, hr, rfl⟩ := fields_of_effective he hs
    obtain ⟨condition, -, made⟩ := Checked.bind_eq_ok.mp made
    obtain ⟨select, -, made⟩ := Checked.bind_eq_ok.mp made
    obtain ⟨⟨data, paging⟩, -, made⟩ := Checked.bind_eq_ok.mp made
    obtain ⟨aggregations, haggregations, made⟩ := Checked.bind_eq_ok.mp made
    cases made
    have written := (Resolver.describes hr).table
    refine ⟨r, hr, ?_, ?_⟩
    · have described : (r.restrict c.roles).table.aggregations = t.aggregations := by
        rw [← written]
        rfl
      rw [← described]
      exact Resolver.aggregationPlan_eq_none haggregations
    · intro plan mem
      obtain ⟨items, hitems, rfl⟩ := Resolver.eq_of_mem_aggregationPlan haggregations (Option.mem_toList.mpr mem)
      unfold Resolver.aggregateSelection at hitems
      rw [Resolver.aggregates_restrict] at hitems
      obtain ⟨calls, hcalls, hitems⟩ := Checked.bind_eq_ok.mp hitems
      cases hitems
      rw [← written]
      exact ⟨rfl, rfl, calls, Resolver.aggregates_eq_ok hcalls, rfl⟩
  · intro plan made
    unfold compileGrouped at made
    obtain ⟨e, he, made⟩ := Checked.bind_eq_ok.mp made
    dsimp only at made
    have grouped : e.groupBy = t.groupBy := by
      rw [eq_visibleTo_of_effective he]
      rfl
    cases described : t.groupBy with
    | none =>
      rw [grouped, described] at made
      cases made
    | some g =>
      rw [grouped, described] at made
      obtain ⟨s, hs, made⟩ := Checked.bind_eq_ok.mp made
      obtain ⟨r, hr, rfl⟩ := fields_of_effective he hs
      obtain ⟨grouping, hgrouping, made⟩ := Checked.bind_eq_ok.mp made
      obtain ⟨condition, -, made⟩ := Checked.bind_eq_ok.mp made
      obtain ⟨order, -, made⟩ := Checked.bind_eq_ok.mp made
      cases made
      rw [Resolver.grouping_restrict] at hgrouping
      have written : r.table.groupBy = some g := by
        rw [(Resolver.describes hr).table]
        exact described
      exact ⟨r, g, hr, rfl, Resolver.grouping_eq_ok written hgrouping⟩

/-- The total of an order, which only finance may see. -/
def total : Column := { name := "total", type := .number, visibleTo := ["finance"] }

/-- A table of orders with their revenue, in all and by status. -/
def revenues : Table where
  name := "orders"
  base := "orders"
  columns := [{ name := "id", type := .number }, { name := "status" }, total]
  aggregations := [{ name := "revenue", type := .sum, field := "total" }]
  groupBy := some { fields := ["status"], having := [{ name := "revenue", op := .gte, value := .int 100 }] }

/-- A caller without roles is given the sum of the totals, in all and by status. -/
theorem aggregates_as_written_revenues :
    ∃ compiled plan grouped, revenues.compile .postgresql {} {} ⟨0⟩ = .ok compiled
      ∧ compiled.aggregations = some plan ∧ revenues.compileGrouped .postgresql {} {} ⟨0⟩ = .ok grouped
      ∧ ∃ f item, f.origin = .column total ∧ f.isVisibleTo [] = false
        ∧ item.expression = Aggregation.call { name := "revenue", type := .sum, field := "total" } f
        ∧ item ∈ plan.select ∧ item ∈ grouped.select := by
  obtain ⟨compiled, made⟩ : ∃ compiled, revenues.compile .postgresql {} {} ⟨0⟩ = .ok compiled := ⟨_, rfl⟩
  obtain ⟨grouped, madeGroups⟩ : ∃ plan, revenues.compileGrouped .postgresql {} {} ⟨0⟩ = .ok plan := ⟨_, rfl⟩
  obtain ⟨inAll, byStatus⟩ := @aggregates_as_written revenues .postgresql {} {} ⟨0⟩
  obtain ⟨r, hr, hasPlan, outputs⟩ := inAll compiled made
  obtain ⟨r', g, hr', -, groups⟩ := byStatus grouped madeGroups
  have found : ((Resolver.ofTable revenues .postgresql).toOption.bind fun r => r.scalar? "total")
      = some (Field.ofColumn .postgresql ["orders", "orders"] "orders" total) := rfl
  have found' := found
  rw [hr] at found
  rw [hr'] at found'
  obtain ⟨plan, hplan⟩ := Option.ne_none_iff_exists'.mp fun none => List.cons_ne_nil _ _ (hasPlan.mp none)
  obtain ⟨-, -, items, calls, selected⟩ := outputs plan hplan
  obtain ⟨fields, items', -, calls', selected', -⟩ := groups.outputs
  rw [(Resolver.describes hr').table] at calls'
  obtain ⟨item, mem, f, hf, rfl⟩ := Checked.exists_of_forall₂ calls List.mem_cons_self
  obtain ⟨item', mem', f', hf', rfl⟩ := Checked.exists_of_forall₂ calls' List.mem_cons_self
  cases Option.some.inj (hf.symm.trans found)
  cases Option.some.inj (hf'.symm.trans found')
  refine ⟨compiled, plan, grouped, made, hplan, madeGroups,
    Field.ofColumn .postgresql ["orders", "orders"] "orders" total, { name := "revenue", expression := _ },
    rfl, rfl, rfl, ?_, ?_⟩
  · rw [selected]
    exact List.mem_append_left _ mem
  · rw [selected']
    exact List.mem_append_right _ mem'

end Table

end TableQuery

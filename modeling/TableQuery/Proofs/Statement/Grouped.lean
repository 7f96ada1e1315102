import TableQuery.Proofs.Sql.Nesting
import TableQuery.Proofs.Statement.Aggregate

/-!
# Grouped statements

A row of a grouped statement stands for a group of rows, so all that it is made from and sorted by has one value in
each group: what the statement groups by, and calls of aggregates. A key of a request's order counts if it names a
field to group by, or else aggregates; the other keys are dropped, and without one that counts the groups are sorted by
what they are grouped by. A condition on groups cannot use the output name of an aggregate, so it repeats the call.

## What is proved

`Table.grouped_wellFormed`: a grouped statement is made from what has one value in each group, its condition is the
conjunction of the described comparisons, and its order is that of the keys that count.
-/

namespace TableQuery

variable {t : Table} {d : Dialect} {r : Resolver}

/-! ## Conjunctions of comparisons -/

namespace Fragment

/-- Fragments with a separator between them have their texts with it between these. -/
theorem sql_join_eq (sep : Bytes) (parts : List Fragment) : (join sep parts).sql = Bytes.join sep (parts.map sql) := by
  cases parts with
  | nil => rfl
  | cons f rest =>
    rw [sql_join]
    induction rest generalizing f with
    | nil => simp [Bytes.join]
    | cons g rest ih =>
      simp only [List.map_cons, Bytes.join, List.intercalate_cons_cons, List.flatMap_cons] at ih ⊢
      rw [← ih g]
      simp

/-- A fragment can stand in a conjunction as it is: it has text, and no connective at the top. -/
structure StandsAlone (e : Fragment) : Prop where
  filled : e.isEmpty = false
  atom : e.kind = .atom

namespace StandsAlone

variable {e : Fragment} (h : e.StandsAlone)
include h

theorem append (g : Fragment) : (e ++ g).StandsAlone where
  filled := by
    have filled := h.filled
    simp only [← Bool.not_eq_true, isEmpty_iff, sql_append, List.append_eq_nil_iff] at filled ⊢
    exact fun none => filled none.1
  atom := h.atom

theorem add (sql : Bytes) : (e.add sql).StandsAlone where
  filled := (h.append (text sql)).filled
  atom := h.atom

end StandsAlone

/-- Conditions that can are put next to each other as they are, and their values in the same order. -/
theorem all_of_standsAlone {parts : List Fragment} (each : ∀ e ∈ parts, e.StandsAlone) :
    (all parts).sql = Bytes.join " AND " (parts.map sql) ∧ (all parts).params = parts.flatMap params := by
  have whole : present parts = parts := by
    unfold present
    rw [List.filter_eq_self]
    intro e mem
    rw [(each e mem).filled]
    rfl
  have bare : parts.map (guarded .disjunction) = parts := by
    refine (List.map_congr_left fun e mem => ?_).trans (List.map_id parts)
    apply guarded_of_kind
    rw [(each e mem).atom]
    exact Connective.noConfusion
  constructor
  · unfold all
    match parts with
    | [] => rfl
    | [e] => rw [combine_singleton whole, List.map_singleton, Bytes.join, List.intercalate_singleton]
    | e :: e' :: rest =>
      rw [combine_eq_join (by rw [whole]; exact Nat.le_add_left 2 _), whole, bare]
      exact sql_join_eq _ _
  · rw [all, params_combine, whole]

end Fragment

/-- A comparison stands in a conjunction as it is if its left side does. -/
theorem Comparison.standsAlone_apply {left : Fragment} (c : Comparison) (h : left.StandsAlone) (right : Fragment)
    (d : Dialect) : (c.apply left right d).StandsAlone := by
  have infixed (op : Bytes) : (((left.add " ").add op).add " " ++ right).StandsAlone :=
    (((h.add _).add op).add _).append right
  have folded : (((Fragment.text "LOWER(" ++ left).add ") LIKE LOWER(" ++ right).add ")").StandsAlone := by
    have opened : (Fragment.text "LOWER(").StandsAlone := ⟨rfl, rfl⟩
    exact (((opened.append left).add _).append right).add _
  cases c with
  | ilike =>
    cases d with
    | postgresql => exact infixed _
    | _ => exact folded
  | _ => exact infixed _

/-- The values of a comparison are those of its sides in turn. -/
theorem Comparison.params_apply (c : Comparison) (left right : Fragment) (d : Dialect) :
    (c.apply left right d).params = left.params ++ right.params := by
  cases c with
  | ilike => cases d <;> simp [apply, Fragment.text]
  | _ => simp [apply]

theorem Aggregation.standsAlone_call (a : Aggregation) (f : Field) : (a.call f).StandsAlone := by
  have opened : (Fragment.text (a.type.name ++ [Ascii.leftParen])).StandsAlone := by
    refine ⟨?_, rfl⟩
    cases a.type <;> rfl
  exact (opened.append f.expression).add _

namespace Resolver

variable {g : GroupBy} {key : SortKey}

theorem IsConditionOf.standsAlone {h : HavingCondition} {e : Fragment} (compares : r.IsConditionOf h e) :
    e.StandsAlone := by
  obtain ⟨a, f, -, -, rfl⟩ := compares
  exact h.op.standsAlone_apply (a.standsAlone_call f) _ _

/-- The value that a condition on groups compares with is bound, after those of the call. -/
theorem IsConditionOf.bound {h : HavingCondition} {e : Fragment} (compares : r.IsConditionOf h e) :
    [h.value] <:+ e.params := by
  obtain ⟨a, f, -, -, rfl⟩ := compares
  rw [Comparison.params_apply]
  exact List.suffix_append _ _

/-- A condition that has the text of one comparison after another, and their values in the same order. -/
def IsConjunctionOf (r : Resolver) (described : List HavingCondition) (having : Fragment) : Prop :=
  ∃ conditions, List.Forall₂ (fun h e => r.IsConditionOf h e ∧ [h.value] <:+ e.params) described conditions
    ∧ having.sql = Bytes.join " AND " (conditions.map Fragment.sql)
    ∧ having.params = conditions.flatMap Fragment.params

/-! ## What has one value in each group -/

/-- An expression with one value in each group: one that is grouped by, or the call of an aggregate of the
description. -/
inductive IsGroupwise (r : Resolver) (groupBy : List Fragment) : Fragment → Prop where
  | grouped {e : Fragment} (mem : e ∈ groupBy) : IsGroupwise r groupBy e
  | call {a : Aggregation} {f : Field} (mem : a ∈ r.table.aggregations) (found : r.scalar? a.field = some f) :
      IsGroupwise r groupBy (a.call f)

/-- A key that a grouped request can sort by: it names a field to group by or an aggregate. -/
def recognizes (r : Resolver) (g : GroupBy) (key : SortKey) : Bool :=
  g.fields.contains key.field || r.table.aggregations.any fun a => a.name == key.field

/-- The term by which a key sorts groups, if it names the call of an aggregate. -/
def IsCallTermOf (r : Resolver) (key : SortKey) (a : Aggregation) (term : OrderTerm) : Prop :=
  ∃ f, r.scalar? a.field = some f ∧ term = { field := a.name, expression := a.call f, direction := key.direction }

/-- The terms by which a key sorts groups: the field to group by that it names, or else each aggregate of its name. -/
inductive SortsGroups (r : Resolver) (g : GroupBy) (key : SortKey) : List OrderTerm → Prop where
  | field {f : Field} (named : key.field ∈ g.fields) (found : r.scalar? key.field = some f) :
      SortsGroups r g key [{ field := f.name, expression := f.expression, direction := key.direction }]
  | aggregates {terms : List OrderTerm} (other : key.field ∉ g.fields)
      (calls : List.Forall₂ (r.IsCallTermOf key) (r.table.aggregations.filter fun a => a.name == key.field) terms) :
      SortsGroups r g key terms

/-- The item that selects what is grouped by. -/
def groupItem (f : Field) : SelectItem := { name := f.name, expression := f.expression }

/-- The term by which groups are sorted where a request asks for no order. -/
def groupTerm (f : Field) : OrderTerm := { field := f.name, expression := f.expression, direction := .asc }

/-- A key that counts has terms, and another has none. -/
theorem SortsGroups.ne_nil_iff {terms : List OrderTerm} (h : r.SortsGroups g key terms) :
    terms ≠ [] ↔ r.recognizes g key = true := by
  unfold recognizes
  cases h with
  | field named => simp [named]
  | aggregates other calls =>
    have empty : terms = [] ↔ (r.table.aggregations.filter fun a => a.name == key.field) = [] := by
      rw [← List.length_eq_zero_iff, ← calls.length_eq, List.length_eq_zero_iff]
    rw [Ne, empty, List.filter_eq_nil_iff]
    simp [other]

/-! ## The order of groups -/

/-- Groups are sorted by the keys that count, in turn, or by what they are grouped by if none counts. -/
structure OrdersGroups (r : Resolver) (g : GroupBy) (fields : List Field) (sort : List SortKey)
    (order : List OrderTerm) : Prop where
  requested : sort.filter (r.recognizes g) ≠ [] →
    ∃ blocks, List.Forall₂ (r.SortsGroups g) (sort.filter (r.recognizes g)) blocks ∧ (∀ block ∈ blocks, block ≠ [])
      ∧ order = blocks.flatten
  unrequested : sort.filter (r.recognizes g) = [] → order = fields.map groupTerm

/-- Keys that do not count leave nothing behind. -/
theorem exists_blocks {sort : List SortKey} {terms : List (List OrderTerm)}
    (sorts : List.Forall₂ (r.SortsGroups g) sort terms) :
    ∃ blocks, List.Forall₂ (r.SortsGroups g) (sort.filter (r.recognizes g)) blocks
      ∧ (∀ block ∈ blocks, block ≠ []) ∧ terms.flatten = blocks.flatten := by
  induction sorts with
  | nil => exact ⟨[], .nil, List.forall_mem_nil _, rfl⟩
  | @cons key block _ _ head _ ih =>
    obtain ⟨blocks, rest, filled, same⟩ := ih
    by_cases counts : r.recognizes g key = true
    · refine ⟨block :: blocks, ?_, ?_, ?_⟩
      · rw [List.filter_cons_of_pos counts]
        exact .cons head rest
      · rw [List.forall_mem_cons]
        exact ⟨head.ne_nil_iff.mpr counts, filled⟩
      · rw [List.flatten_cons, List.flatten_cons, same]
    · have none : block = [] := not_not.mp (mt head.ne_nil_iff.mp counts)
      refine ⟨blocks, ?_, filled, ?_⟩
      · rwa [List.filter_cons_of_neg counts]
      · rw [List.flatten_cons, none, List.nil_append, same]

/-- Beside what is grouped by stand the items that select it. -/
theorem map_zip_groupBy (fields : List Field) (items : List SelectItem) :
    ((fields.map groupItem ++ items).zip (fields.map Field.expression)).map (fun (item, expression) =>
      ({ field := item.name, expression, direction := .asc } : OrderTerm)) = fields.map groupTerm := by
  induction fields with
  | nil => simp
  | cons f rest ih =>
    simp only [List.map_cons, List.cons_append, List.zip_cons_cons, ih]
    rfl

section Fields

variable {fields : List Field} {sort : List SortKey} {order : List OrderTerm}
  (named : List.Forall₂ (fun name f => r.scalar? name = some f) g.fields fields)
include named

theorem groupedTerms_eq_ok {terms : List OrderTerm} (made : r.groupedTerms g.fields key = .ok terms) :
    r.SortsGroups g key terms := by
  unfold groupedTerms at made
  split_ifs at made with grouped
  · rw [List.contains_iff_mem] at grouped
    obtain ⟨f, -, found⟩ := Checked.exists_of_forall₂ named grouped
    rw [(Option.filter_eq_some_iff.mp found).1] at made
    cases made
    exact .field grouped found
  · rw [List.contains_iff_mem] at grouped
    refine .aggregates grouped ((Checked.mapM_eq_ok.mp made).imp fun a term made => ?_)
    obtain ⟨call, called, made⟩ := Checked.bind_eq_ok.mp made
    cases made
    obtain ⟨f, found, rfl⟩ := aggregate_eq_ok called
    exact ⟨f, found, rfl⟩

theorem SortsGroups.groupwise {terms : List OrderTerm} (h : r.SortsGroups g key terms) :
    ∀ term ∈ terms, r.IsGroupwise (fields.map Field.expression) term.expression := by
  intro term mem
  cases h with
  | @field f grouped found =>
    rw [List.mem_singleton.mp mem]
    obtain ⟨f', mem', found'⟩ := Checked.exists_of_forall₂ named grouped
    rw [found, Option.some.injEq] at found'
    subst found'
    exact .grouped (List.mem_map_of_mem mem')
  | aggregates _ calls =>
    obtain ⟨a, mem', f, found, rfl⟩ := Checked.exists_of_forall₂ calls.flip mem
    exact .call (List.mem_of_mem_filter mem') found

theorem groupedOrder_eq_ok {items : List SelectItem} {grouping : Grouping}
    (select : grouping.select = fields.map groupItem ++ items)
    (groupBy : grouping.groupBy = fields.map Field.expression)
    (made : r.groupedOrder g.fields grouping sort = .ok order) : r.OrdersGroups g fields sort order := by
  unfold groupedOrder at made
  obtain ⟨terms, hterms, made⟩ := Checked.bind_eq_ok.mp made
  obtain ⟨blocks, sorts, filled, same⟩ :=
    exists_blocks ((Checked.mapM_eq_ok.mp hterms).imp fun _ _ => groupedTerms_eq_ok named)
  -- there are terms just if there are keys that count
  have requested : blocks.flatten = [] ↔ sort.filter (r.recognizes g) = [] := by
    rw [List.flatten_eq_nil_iff, ← List.length_eq_zero_iff, sorts.length_eq, List.length_eq_zero_iff]
    constructor
    · intro empty
      rw [List.eq_nil_iff_forall_not_mem]
      exact fun block mem => filled block mem (empty block mem)
    · rintro rfl
      exact List.forall_mem_nil _
  rw [same] at made
  constructor
  · intro some
    split at made
    · next none => exact absurd (requested.mp none) some
    · cases made
      exact ⟨blocks, sorts, filled, rfl⟩
  · intro none
    rw [requested.mpr none, select, groupBy, map_zip_groupBy] at made
    exact (Except.ok.inj made).symm

theorem OrdersGroups.groupwise (h : r.OrdersGroups g fields sort order) :
    ∀ term ∈ order, r.IsGroupwise (fields.map Field.expression) term.expression := by
  intro term mem
  by_cases none : sort.filter (r.recognizes g) = []
  · rw [h.unrequested none] at mem
    obtain ⟨f, hf, rfl⟩ := List.mem_map.mp mem
    exact .grouped (List.mem_map_of_mem hf)
  · obtain ⟨blocks, sorts, -, rfl⟩ := h.requested none
    obtain ⟨block, hblock, mem⟩ := List.mem_flatten.mp mem
    obtain ⟨key, -, sorts⟩ := Checked.exists_of_forall₂ sorts.flip hblock
    exact sorts.groupwise named term mem

end Fields

/-- Whatever order a grouped request asks for, its terms have one value in each group. -/
theorem groupwise_of_groupedOrder {grouping : Grouping} {sort : List SortKey} {order : List OrderTerm}
    (described : r.table.groupBy = some g) (hgrouping : r.grouping = .ok grouping)
    (made : r.groupedOrder g.fields grouping sort = .ok order) :
    ∀ term ∈ order, r.IsGroupwise grouping.groupBy term.expression := by
  obtain ⟨fields, items, named, -, select, groupBy⟩ := (grouping_eq_ok described hgrouping).outputs
  rw [groupBy]
  exact (groupedOrder_eq_ok named select groupBy made).groupwise named

namespace Groups

variable {select : List SelectItem} {groupBy : List Fragment} {having : Fragment}
  (h : r.Groups g select groupBy having)
include h

theorem groupwise : ∀ item ∈ select, r.IsGroupwise groupBy item.expression := by
  obtain ⟨fields, items, -, calls, rfl, rfl⟩ := h.outputs
  intro item mem
  rcases List.mem_append.mp mem with mem | mem
  · obtain ⟨f, hf, rfl⟩ := List.mem_map.mp mem
    exact .grouped (List.mem_map_of_mem hf)
  · obtain ⟨a, ha, f, found, rfl⟩ := Checked.exists_of_forall₂ calls.flip mem
    exact .call ha found

theorem conjunction : r.IsConjunctionOf g.having having := by
  obtain ⟨conditions, compared, rfl⟩ := h.conditions
  have alone : ∀ e ∈ conditions, e.StandsAlone := by
    intro e mem
    obtain ⟨h, -, compares⟩ := Checked.exists_of_forall₂ compared.flip mem
    exact IsConditionOf.standsAlone compares
  obtain ⟨sql, params⟩ := Fragment.all_of_standsAlone alone
  exact ⟨conditions, compared.imp fun _ _ compares => ⟨compares, IsConditionOf.bound compares⟩, sql, params⟩

end Groups

end Resolver

/-! ## Grouped statements -/

/-- A grouped statement is well formed: all that it is made from and sorted by has one value in each group, its
condition on groups is the conjunction of the described ones, and it is in the order of a request. -/
structure Plan.GroupsBy (plan : Plan) (r : Resolver) (g : GroupBy) (fields : List Field) (sort : List SortKey) :
    Prop where
  named : List.Forall₂ (fun name f => r.scalar? name = some f) g.fields fields
  groupBy : plan.groupBy = fields.map Field.expression
  select : ∀ item ∈ plan.select, r.IsGroupwise plan.groupBy item.expression
  order : ∀ term ∈ plan.order, r.IsGroupwise plan.groupBy term.expression
  having : r.IsConjunctionOf g.having plan.having
  sorted : r.OrdersGroups g fields sort plan.order

namespace Table

variable {p : Params} {c : Context} {clock : Instant} {plan : Plan}

/-- Whatever a request asks for, its grouped statement selects and is sorted by nothing but what it groups by and calls
of the described aggregates. A condition on groups compares the call of the first aggregate of its name with a bound
value. The keys of the request that name a field to group by or an aggregate sort the groups in turn, and without such a
key the fields to group by do, upwards. -/
theorem grouped_wellFormed (made : t.compileGrouped d p c clock = .ok plan) :
    ∃ r g fields, Resolver.ofTable (t.visibleTo c.roles) d = .ok r ∧ t.groupBy = some g
      ∧ r.table.aggregations = t.aggregations ∧ plan.GroupsBy r g fields p.sort := by
  unfold compileGrouped at made
  obtain ⟨e, he, made⟩ := Checked.bind_eq_ok.mp made
  obtain rfl := eq_visibleTo_of_effective he
  dsimp only at made
  cases described : (t.visibleTo c.roles).groupBy with
  | none =>
    rw [described] at made
    cases made
  | some g =>
    rw [described] at made
    obtain ⟨r, hr, made⟩ := Checked.bind_eq_ok.mp made
    obtain ⟨grouping, hgrouping, made⟩ := Checked.bind_eq_ok.mp made
    obtain ⟨condition, -, made⟩ := Checked.bind_eq_ok.mp made
    obtain ⟨order, horder, made⟩ := Checked.bind_eq_ok.mp made
    cases made
    have table := (Resolver.describes hr).table
    have groups := Resolver.grouping_eq_ok (table.symm ▸ described) hgrouping
    obtain ⟨fields, items, named, -, select, groupBy⟩ := groups.outputs
    have sorted := Resolver.groupedOrder_eq_ok named select groupBy horder
    have aggregations : r.table.aggregations = t.aggregations := by
      rw [table]
      rfl
    refine ⟨r, g, fields, hr, described, aggregations, named, groupBy, groups.groupwise, ?_, groups.conjunction, sorted⟩
    rw [groupBy]
    exact sorted.groupwise named

/-- Orders by status, where there are several and they come to something. -/
def takings : Table where
  name := "orders"
  base := "orders"
  columns := [{ name := "id", type := .number }, { name := "status" }, { name := "total", type := .number }]
  aggregations := [{ name := "orders", field := "id" }, { name := "status", type := .sum, field := "total" }]
  groupBy := some
    { fields := ["status"]
      having :=
        [{ name := "orders", op := .gt, value := .int 1 }, { name := "status", op := .gte, value := .int 100 }] }

/-- An aggregate and what is grouped by have one name. A key of the order means what is grouped by, a condition the
aggregate. -/
theorem grouped_wellFormed_takings :
    ∃ plan r g fields, takings.compileGrouped .sqlite
        { sort := [{ field := "total" }, { field := "orders", direction := .desc }, { field := "status" }] } {} ⟨0⟩
          = .ok plan
      ∧ plan.GroupsBy r g fields
        [{ field := "total" }, { field := "orders", direction := .desc }, { field := "status" }]
      ∧ plan.order.map (fun term => term.expression.sql) = ["count(\"orders\".\"id\")", "\"orders\".\"status\""]
      ∧ plan.having.sql = "count(\"orders\".\"id\") > ? AND sum(\"orders\".\"total\") >= ?" := by
  obtain ⟨plan, made⟩ : ∃ plan, takings.compileGrouped .sqlite
      { sort := [{ field := "total" }, { field := "orders", direction := .desc }, { field := "status" }] } {} ⟨0⟩
        = .ok plan := ⟨_, rfl⟩
  obtain ⟨r, g, fields, -, -, -, groups⟩ := grouped_wellFormed made
  refine ⟨plan, r, g, fields, made, groups, ?_⟩
  cases made
  decide +kernel

end Table

end TableQuery

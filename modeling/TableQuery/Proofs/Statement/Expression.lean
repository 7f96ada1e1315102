import TableQuery.Proofs.Statement.Grouped
import TableQuery.Proofs.Statement.Tested
import TableQuery.Proofs.Statement.Tree

/-!
# Tests of nothing

A test of a field without an expression has an operator and a value in it and nothing in front of them. A field of a
subquery that fetches a row is such a field.

What a request filters, searches, sorts or goes on by has one value in each row, and so has what a description
groups by, computes or always filters by. The backend conditions, the filter trees of a description, the mark of
deleted rows and the tenant may be any field that there is, one that fetches a row as well.

## What is proved

`Table.tests_expressions`: in every statement for a validated description, what is sorted, grouped or computed by has
an expression, and so has each field that is tested, but for those that the backend conditions, the description's
filter trees, the exclusion of deleted rows and the tenant ask for; which these are is said field by field.
-/

namespace TableQuery

variable {r : Resolver} {qualifier : Bytes} {t : Table} {d : Dialect} {day : Day}

/-! ## The condition of a request -/

/-- The parts of the condition on the rows of a request. -/
structure RowCondition where
  scope : Fragment
  static : Fragment
  configured : Fragment
  filters : Fragment
  groups : Fragment
  search : Fragment
  /-- Empty but on a page by cursor. -/
  continuation : Fragment := .empty

namespace RowCondition

/-- A condition has these parts. -/
structure In (a : RowCondition) (r : Resolver) (p : Params) (c : Context) (day : Day) (condition : Fragment) :
    Prop where
  scope : r.scope c p.includeDeleted = .ok a.scope
  static : r.staticFilters day = .ok a.static
  configured : r.configuredGroups day = .ok a.configured
  filters : r.requestFilters {} day p.filters = .ok a.filters
  groups : r.requestGroups {} day p.filterGroups = .ok a.groups
  search : r.search {} p.search = .ok a.search
  whole : condition
    = .all [.all [a.scope, a.static, a.configured, a.filters, a.groups, a.search], a.continuation]

/-- The parts test only fields with an expression, except where the scope or a filter tree of the description tests
one that fetches a row. -/
structure TestsText (a : RowCondition) (r : Resolver) (p : Params) (c : Context) : Prop where
  scope : a.scope.TestsJust r.dialect (r.ScopeTests c p.includeDeleted)
  configured : a.configured.TestsJust r.dialect r.TreesTest
  text : ∀ f, r.ScopeTests c p.includeDeleted f ∨ r.TreesTest f → (f.HasText ↔ ¬f.FetchesRow)
  static : a.static.Tests r.dialect Field.HasText
  filters : a.filters.Tests r.dialect Field.HasText
  groups : a.groups.Tests r.dialect Field.HasText
  search : ∃ term fields, r.LooksIn term fields a.search ∧ ∀ f ∈ fields, f.HasText
  continuation : a.continuation.Tests r.dialect Field.HasText

end RowCondition

theorem Resolver.ScopeTests.exists_resolve {c : Context} {includeDeleted : Bool} {f : Field}
    (h : r.ScopeTests c includeDeleted f) : ∃ name, r.resolve name = some f := by
  cases h with
  | backend b _ found => exact ⟨b.field, found⟩
  | softDelete _ _ found => exact ⟨_, found⟩
  | tenant _ found => exact ⟨_, found⟩

/-- A term that sorts by a field with an expression, or by an aggregate of one. -/
def OrderTerm.SortsByText (term : OrderTerm) : Prop :=
  ∃ f : Field, f.HasText ∧ (term.expression = f.expression ∨ ∃ a : Aggregation, term.expression = a.call f)

/-- A statement whose rows are tested and sorted by what has an expression, with the exceptions of its condition. -/
structure Plan.TestsText (plan : Plan) (r : Resolver) (p : Params) (c : Context) (day : Day) : Prop where
  condition : ∃ a : RowCondition, a.In r p c day plan.condition ∧ a.TestsText r p c
  order : ∀ term ∈ plan.order, term.SortsByText

/-! ## Groups and trees -/

namespace Resolver

/-- A grouped statement is in the order of its groups or of its aggregates. -/
theorem sortsByText_groupedOrder (hr : r.Describes qualifier t d) {g : GroupBy} {grouping : Grouping}
    (described : r.table.groupBy = some g) (hgrouping : r.grouping = .ok grouping) {sort : List SortKey}
    {order : List OrderTerm} (h : r.groupedOrder g.fields grouping sort = .ok order) :
    ∀ term ∈ order, term.SortsByText := by
  obtain ⟨fields, -, named, -, -, groupBy⟩ := (grouping_eq_ok described hgrouping).outputs
  rintro ⟨field, expression, direction, nullable⟩ mem
  cases groupwise_of_groupedOrder described hgrouping h _ mem with
  | grouped mem =>
    rw [groupBy] at mem
    obtain ⟨f, hf, rfl⟩ := List.mem_map.mp mem
    obtain ⟨name, -, found⟩ := Checked.exists_of_forall₂ named.flip hf
    exact ⟨f, hasText_of_scalar? hr found, .inl rfl⟩
  | @call a f _ found => exact ⟨f, hasText_of_scalar? hr found, .inr ⟨a, rfl⟩⟩

/-- A walk starts with a test of a column of the base table. -/
theorem exists_apply_of_rootCondition {w : TreeWalk} {parent : Bytes} {roots : Fragment}
    (h : r.rootCondition w parent = .ok roots) :
    ∃ (op : Operator) (column : Fragment) (value : Json) (label : Bytes), column.isEmpty = false
      ∧ op.apply column value r.dialect label = .ok roots := by
  unfold rootCondition at h
  split at h
  · exact ⟨.isNull, _, .null, [], Fragment.isEmpty_identifier _ _, h⟩
  · next start _ =>
    split at h
    · exact ⟨start.op, _, start.value, start.field, Fragment.isEmpty_identifier _ _, h⟩
    · cases h

end Resolver

/-! ## The statements of a description -/

namespace Table

variable {p : Params} {c : Context} {clock : Instant} {e : Table} {catalog : Option Catalog}

section Rows

variable (valid : t.validate catalog = .ok ()) (he : t.effective c = .ok e) (hr : Resolver.ofTable e d = .ok r)
include valid he hr

theorem exists_rowCondition {f continuation : Fragment} (h : r.condition p c day = .ok f)
    (tests : continuation.Tests r.dialect Field.HasText) :
    ∃ a : RowCondition, a.In r p c day (.all [f, continuation]) ∧ a.TestsText r p c := by
  have described := Resolver.describes hr
  obtain ⟨scope, static, configured, filters, groups, search, hscope, hstatic, hconfigured, hfilters, hgroups,
    hsearch, rfl⟩ := Resolver.condition_eq_ok h
  refine ⟨{ scope, static, configured, filters, groups, search, continuation }, ?_, ?_⟩
  · exact ⟨hscope, hstatic, hconfigured, hfilters, hgroups, hsearch, rfl⟩
  · exact {
      scope := Resolver.testsJust_scope hscope
      configured := Resolver.testsJust_configuredGroups hconfigured
      text := by
        rintro f (tested | ⟨leaf, -, found, -⟩)
        · obtain ⟨name, found⟩ := tested.exists_resolve
          exact Resolver.hasText_iff described found
        · exact Resolver.hasText_iff described found
      static := Resolver.tests_staticFilters valid he hr hstatic
      filters := Resolver.forall_requestFilters Fragment.composes_tests
        (fun _ _ => Condition.tests_ofRequest_hasText described) hfilters
      groups := Resolver.forall_requestGroups Fragment.composes_tests
        (fun _ _ => Condition.tests_ofRequest_hasText described) hgroups
      search := Resolver.looksIn_search_hasText described hsearch
      continuation := tests }

/-- The condition of a statement over all rows of a request. -/
theorem exists_rowCondition_all {f : Fragment} (h : r.condition p c day = .ok f) :
    ∃ a : RowCondition, a.In r p c day f ∧ a.TestsText r p c := by
  have whole := exists_rowCondition valid he hr h .nothing
  rwa [all_condition_empty h] at whole

theorem testsText_of_unordered {f : Fragment} {plan : Plan} (h : r.condition p c day = .ok f)
    (all : plan.condition = f) (unordered : plan.order = []) : plan.TestsText r p c day := by
  subst all
  refine ⟨exists_rowCondition_all valid he hr h, ?_⟩
  rw [unordered]
  exact List.forall_mem_nil _

/-- The statement of a page, whichever way it is cut. -/
theorem testsText_dataPlan {f : Fragment} {select : List SelectItem} {plan : Plan} {paging : Paging}
    (h : r.condition p c day = .ok f) (made : r.dataPlan p select f = .ok (plan, paging)) :
    plan.TestsText r p c day := by
  have described := Resolver.describes hr
  unfold Resolver.dataPlan at made
  cases cursor : p.cursor with
  | none =>
    rw [cursor] at made
    cases made
    refine ⟨exists_rowCondition_all valid he hr h, fun term mem => ?_⟩
    obtain ⟨name, f, found, sortable, expressed⟩ := Resolver.mem_lenientOrder mem
    exact ⟨f, Resolver.hasText_of_supports_sort described found sortable, .inl expressed⟩
  | some token =>
    rw [cursor] at made
    obtain ⟨keyset, hkeyset, made⟩ := Checked.bind_eq_ok.mp made
    cases made
    have terms : ∀ term ∈ keyset.order, ∃ f : Field, f.HasText ∧ term.expression = f.expression := by
      intro term mem
      obtain ⟨name, f, found, sortable, -, -, expressed⟩ :=
        Keyset.mem_activeOrder (Keyset.activeOrder_of_ofRequest hkeyset) mem
      exact ⟨f, Resolver.hasText_of_supports_sort described found sortable, expressed⟩
    refine ⟨exists_rowCondition valid he hr h ?_, ?_⟩
    · rcases Keyset.continuation_of_ofRequest hkeyset with none | ⟨boundary, -, after⟩
      · rw [none]
        exact .nothing
      · rw [after]
        exact Keyset.tests_continuationAfter terms boundary
    · intro term mem
      obtain ⟨f, filled, expressed⟩ := terms term mem
      exact ⟨f, filled, .inl expressed⟩

end Rows

theorem testsText_of_answers (valid : t.validate catalog = .ok ()) {plan : Plan}
    (h : t.Answers d p c clock plan) : ∃ e r, t.effective c = .ok e ∧ Resolver.ofTable e d = .ok r
      ∧ plan.TestsText r p c (c.today clock) := by
  cases h with
  | answer made mem =>
    unfold compile at made
    obtain ⟨e, he, made⟩ := Checked.bind_eq_ok.mp made
    obtain ⟨r, hr, made⟩ := Checked.bind_eq_ok.mp made
    obtain ⟨condition, hcondition, made⟩ := Checked.bind_eq_ok.mp made
    obtain ⟨select, -, made⟩ := Checked.bind_eq_ok.mp made
    obtain ⟨⟨data, paging⟩, hdata, made⟩ := Checked.bind_eq_ok.mp made
    obtain ⟨aggregations, haggregations, made⟩ := Checked.bind_eq_ok.mp made
    cases made
    refine ⟨e, r, he, hr, ?_⟩
    simp only [Compiled.plans, List.mem_append, List.mem_cons, List.not_mem_nil, or_false] at mem
    rcases mem with (rfl | rfl) | mem
    · exact testsText_dataPlan valid he hr hcondition hdata
    · exact testsText_of_unordered valid he hr hcondition rfl rfl
    · obtain ⟨items, -, rfl⟩ := Resolver.eq_of_mem_aggregationPlan haggregations mem
      exact testsText_of_unordered valid he hr hcondition rfl rfl
  | count made =>
    unfold compileCount at made
    obtain ⟨e, he, made⟩ := Checked.bind_eq_ok.mp made
    obtain ⟨r, hr, made⟩ := Checked.bind_eq_ok.mp made
    obtain ⟨condition, hcondition, made⟩ := Checked.bind_eq_ok.mp made
    cases made
    exact ⟨e, r, he, hr, testsText_of_unordered valid he hr hcondition rfl rfl⟩

/-- No statement tests nothing, but where the author of the description asks for it. In every statement for a
validated description, whatever the dialect, the request and the context are, each field that the static filters, the
request's filters, filter trees and search, and the cursor's continuation test has an expression, and so has each
that the statement is sorted or grouped by or that an aggregate or a condition on groups computes from. The scope
tests the fields of the backend conditions, of the mark of deleted rows and of the tenant, the description's filter
trees those of their leaves, and each of these has an expression exactly if it is not the field of a subquery that
fetches a row. The walk down a tree has the same scope, and starts with a test of a column. -/
theorem tests_expressions (valid : t.validate catalog = .ok ()) :
    (∀ plan, t.Answers d p c clock plan → ∃ e r, t.effective c = .ok e ∧ Resolver.ofTable e d = .ok r
      ∧ plan.TestsText r p c (c.today clock))
    ∧ (∀ compiled, t.compile d p c clock = .ok compiled → ∀ plan ∈ compiled.aggregations,
      ∃ e r items, t.effective c = .ok e ∧ Resolver.ofTable e d = .ok r
        ∧ plan.select = items ++ [{ name := Resolver.totalCountName, expression := .text "count(*)" }]
        ∧ List.Forall₂ r.IsCallOf t.aggregations items ∧ ∀ name f, r.scalar? name = some f → f.HasText)
    ∧ (∀ plan, t.compileGrouped d p c clock = .ok plan → ∃ e r g, t.effective c = .ok e
      ∧ Resolver.ofTable e d = .ok r ∧ t.groupBy = some g ∧ plan.TestsText r p c (c.today clock)
      ∧ r.Groups g plan.select plan.groupBy plan.having ∧ ∀ name f, r.scalar? name = some f → f.HasText)
    ∧ ∀ statement, t.compileTree d p c = .ok statement → ∃ e r scope, t.effective c = .ok e
      ∧ Resolver.ofTableAs TreeWalk.treeName e d = .ok r ∧ r.scope c p.includeDeleted = .ok scope
      ∧ r.walkStatement scope = .ok statement ∧ scope.TestsJust d (r.ScopeTests c p.includeDeleted)
      ∧ (∀ f, r.ScopeTests c p.includeDeleted f → (f.HasText ↔ ¬f.FetchesRow))
      ∧ ∀ w parent roots, r.rootCondition w parent = .ok roots →
        ∃ (op : Operator) (column : Fragment) (value : Json) (label : Bytes), column.isEmpty = false
          ∧ op.apply column value d label = .ok roots := by
  refine ⟨fun plan h => testsText_of_answers valid h, ?_, ?_, ?_⟩
  · intro compiled made plan mem
    unfold compile at made
    obtain ⟨e, he, made⟩ := Checked.bind_eq_ok.mp made
    obtain ⟨r, hr, made⟩ := Checked.bind_eq_ok.mp made
    obtain ⟨condition, -, made⟩ := Checked.bind_eq_ok.mp made
    obtain ⟨select, -, made⟩ := Checked.bind_eq_ok.mp made
    obtain ⟨⟨data, paging⟩, -, made⟩ := Checked.bind_eq_ok.mp made
    obtain ⟨aggregations, haggregations, made⟩ := Checked.bind_eq_ok.mp made
    cases made
    obtain ⟨selected, hselected, rfl⟩ :=
      Resolver.eq_of_mem_aggregationPlan haggregations (Option.mem_toList.mpr mem)
    unfold Resolver.aggregateSelection at hselected
    obtain ⟨items, hitems, hselected⟩ := Checked.bind_eq_ok.mp hselected
    cases hselected
    have calls := Resolver.aggregates_eq_ok hitems
    rw [(Resolver.describes hr).table, eq_visibleTo_of_effective he] at calls
    exact ⟨e, r, items, he, hr, rfl, calls, fun name f => Resolver.hasText_of_scalar? (Resolver.describes hr)⟩
  · intro plan made
    unfold compileGrouped at made
    obtain ⟨e, he, made⟩ := Checked.bind_eq_ok.mp made
    dsimp only at made
    split at made
    · cases made
    · next g grouped =>
      obtain ⟨r, hr, made⟩ := Checked.bind_eq_ok.mp made
      obtain ⟨grouping, hgrouping, made⟩ := Checked.bind_eq_ok.mp made
      obtain ⟨condition, hcondition, made⟩ := Checked.bind_eq_ok.mp made
      obtain ⟨order, horder, made⟩ := Checked.bind_eq_ok.mp made
      cases made
      have described := Resolver.describes hr
      have groups : r.table.groupBy = some g := by
        rw [described.table]
        exact grouped
      have written : t.groupBy = some g := by
        rw [eq_visibleTo_of_effective he] at grouped
        exact grouped
      exact ⟨e, r, g, he, hr, written, ⟨exists_rowCondition_all valid he hr hcondition,
        Resolver.sortsByText_groupedOrder described groups hgrouping horder⟩,
        Resolver.grouping_eq_ok groups hgrouping, fun name f => Resolver.hasText_of_scalar? described⟩
  · intro statement made
    unfold compileTree at made
    obtain ⟨e, he, made⟩ := Checked.bind_eq_ok.mp made
    obtain ⟨r, hr, made⟩ := Checked.bind_eq_ok.mp made
    obtain ⟨scope, hscope, made⟩ := Checked.bind_eq_ok.mp made
    have described := Resolver.describes hr
    have tests := Resolver.testsJust_scope hscope
    rw [described.dialect] at tests
    refine ⟨e, r, scope, he, hr, hscope, made, tests, ?_, ?_⟩
    · intro f tested
      obtain ⟨name, found⟩ := tested.exists_resolve
      exact Resolver.hasText_iff described found
    · intro w parent roots h
      rw [← described.dialect]
      exact Resolver.exists_apply_of_rootCondition h

/-- The last reading of a sensor. -/
def latest : Subquery where
  name := "latest"
  mode := .first
  table := "readings"
  conditions := [{ left := .column "readings.sensor", right := .column "sensors.id" }]

/-- A table of sensors, which are filtered by their last readings. -/
def sensors : Table where
  name := "sensors"
  base := "sensors"
  columns := [{ name := "id", type := .number }]
  subqueries := [latest]
  filterGroups := [.leaf { field := "latest", value := .int 1 }]

/-- The filter is accepted, and the sensors are counted for which nothing equals 1. -/
theorem tests_expressions_sensors :
    ∃ plan, sensors.validate none = .ok () ∧ sensors.compileCount .postgresql {} {} ⟨0⟩ = .ok plan
      ∧ plan.toSql.render .postgresql = "SELECT count(*) AS \"total\" FROM \"sensors\" WHERE  = $1"
      ∧ ∃ (e : Table) (r : Resolver) (a : RowCondition) (f : Field), Resolver.ofTable e .postgresql = .ok r
        ∧ a.In r {} {} (({} : Context).today ⟨0⟩) plan.condition ∧ a.configured.TestsJust r.dialect r.TreesTest
        ∧ r.TreesTest f ∧ f.origin = .subquery latest ∧ ¬f.HasText := by
  obtain ⟨plan, made⟩ : ∃ plan, sensors.compileCount .postgresql {} {} ⟨0⟩ = .ok plan := ⟨_, rfl⟩
  have valid : sensors.validate none = .ok () := rfl
  obtain ⟨e, r, he, hr, tests⟩ := (tests_expressions valid).1 plan (.count made)
  obtain ⟨a, parts, text⟩ := tests.condition
  have whole : sensors.effective {} = .ok sensors := rfl
  cases Except.ok.inj (whole.symm.trans he)
  have found : ((Resolver.ofTable sensors .postgresql).toOption.bind fun r => r.resolve "latest")
      = (Field.ofSubquery .postgresql latest).toOption := rfl
  rw [hr] at found
  obtain ⟨f, found, origin⟩ : ∃ f, r.resolve "latest" = some f ∧ f.origin = .subquery latest := ⟨_, found, rfl⟩
  have leaf : Condition.TestsField r { field := "latest", value := .int 1 } f := by
    refine (Condition.testsField_iff found).mpr ⟨rfl, ?_⟩
    unfold Resolver.preset?
    split_ifs <;> exact nofun
  have tested : r.TreesTest f := by
    refine ⟨_, ?_, leaf⟩
    rw [(Resolver.describes hr).table]
    exact List.mem_cons_self
  refine ⟨plan, valid, made, ?_, sensors, r, a, f, hr, parts, text.configured, tested, origin, ?_⟩
  · cases made
    decide +kernel
  · rw [text.text f (.inr tested), not_not]
    exact ⟨latest, origin, rfl⟩

end Table

end TableQuery

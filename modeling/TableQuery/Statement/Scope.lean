import TableQuery.Field.Resolver
import TableQuery.Request.Context

/-!
# Scope

The part of every statement's condition that no request can lift: the backend conditions of the
description, the exclusion of deleted rows, and the tenant. A backend condition whose reference into the
context finds nothing, or null, holds of no row. A table with tenants is refused to a request without
one.
-/

namespace TableQuery

/-- The reference into the context that a value is, if it is one. -/
def Context.reference? : Json → Option Bytes
  | .str (Ascii.dollar :: path) => some (Ascii.dollar :: path)
  | _ => none

namespace Resolver

/-- A backend condition, with its reference replaced by the context's value. -/
def backendCondition (r : Resolver) (context : Context) (c : Condition) : Checked Fragment := do
  let f ← r.require c.field "Backend condition"
  match Context.reference? c.value with
  | none => c.op.apply f.expression c.value r.dialect f.name
  | some reference =>
    match context.lookup reference with
    | none | some .null => return .alwaysFalse
    | some value => c.op.apply f.expression value r.dialect f.name

/-- The backend conditions. -/
def backendConditions (r : Resolver) (context : Context) : Checked Fragment := do
  return Fragment.all (← r.table.backendConditions.mapM (r.backendCondition context))

/-- The exclusion of deleted rows. -/
def softDelete (r : Resolver) (includeDeleted : Bool) : Checked Fragment := do
  if !r.table.softDelete.enabled || includeDeleted then return .empty
  else
    let f ← r.require r.table.softDelete.field "Soft delete"
    Operator.isNull.apply f.expression .null r.dialect f.name

/-- The fault of a request without a tenant. -/
def tenantMissing (r : Resolver) : Fault :=
  .accessDenied (Bytes.ofString "Tenant context is required for '" ++ r.table.name ++ "'")
    (.record [("table", .str r.table.name)])

/-- The restriction to a tenant. -/
def tenant (r : Resolver) (context : Context) : Checked Fragment := do
  if !r.table.tenant.enabled then return .empty
  else match context.tenantId with
    | none => .error r.tenantMissing
    | some id =>
      let f ← r.require r.table.tenant.field "Tenant isolation"
      Operator.eq.apply f.expression (.str id) r.dialect f.name

/-- The whole scope of a request. -/
def scope (r : Resolver) (context : Context) (includeDeleted : Bool) : Checked Fragment := do
  let backend ← r.backendConditions context
  let softDelete ← r.softDelete includeDeleted
  let tenant ← r.tenant context
  return Fragment.all [backend, softDelete, tenant]

end Resolver

end TableQuery

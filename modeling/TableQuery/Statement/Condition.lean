import TableQuery.Calendar.Preset
import TableQuery.Field.Resolver
import TableQuery.Request.Params
import TableQuery.Request.Value

/-!
# Conditions

The SQL of filters. A filter of a request names a field or is ignored, must be allowed on the field, and
has its value checked against the field's type. A filter of the description is trusted: its field must
exist, and its value is bound as it is.

On a date field, a value that names a date preset stands for the preset's range of days; the preset
that has no range is ignored.
-/

namespace TableQuery

namespace Resolver

/-- Whether the description offers a filter on a field to requests. -/
def isDynamicFilter (r : Resolver) (field : Bytes) : Bool :=
  r.table.filters.any fun f => f.kind == .dynamic && f.condition.field == field

/-- Whether a field takes date presets. -/
def takesPresets (r : Resolver) (f : Field) : Bool :=
  f.type == .date || (!r.table.dateRangeColumn.isEmpty && f.name == r.table.dateRangeColumn)

/-- The preset that a value names, if the field takes presets. -/
def preset? (r : Resolver) (f : Field) (value : Json) : Option DatePreset :=
  if r.takesPresets f then DatePreset.ofJson? value else none

/-- Whether a request may filter by a field. -/
def mayFilter (r : Resolver) (f : Field) : Bool :=
  f.scalar && (f.filterable || r.isDynamicFilter f.name)

end Resolver

/-- The condition that a field lies in a range of days. -/
def DateRange.toSql (range : DateRange) (column : Fragment) : Fragment :=
  Fragment.all
    [Operator.binary column ">=" (.str range.start.toIso),
      Operator.binary column "<" (.str range.stop.toIso)]

/-- The condition of a preset on a given day; none for the preset that has no range. -/
def DatePreset.toSql (p : DatePreset) (day : Day) (column : Fragment) : Fragment :=
  match p.rangeOn day with
  | some range => range.toSql column
  | none => .empty

namespace Condition

/-- The condition of a request's filter, empty if no field has the name. -/
def ofRequest (r : Resolver) (limits : Limits) (day : Day) (c : Condition) : Checked Fragment :=
  match r.resolve c.field with
  | none => .ok .empty
  | some f =>
    if !r.mayFilter f then
      .error (.field f.name (Bytes.ofString "Field '" ++ f.name ++ "' is not filterable"))
    else match r.preset? f c.value with
      | some preset => .ok (preset.toSql day f.expression)
      | none => do
        let value ← limits.checkValue f.name f.type c.op c.value
        c.op.apply f.expression value r.dialect f.name

/-- The condition of a description's filter. -/
def ofDescription (r : Resolver) (day : Day) (c : Condition) : Checked Fragment := do
  let f ← r.require c.field "Filter"
  match r.preset? f c.value with
  | some preset => return preset.toSql day f.expression
  | none => c.op.apply f.expression c.value r.dialect f.name

end Condition

namespace FilterTree

mutual

/-- The condition of a tree, given the condition of each leaf. Parts without a condition vanish. -/
def toSql (leafToSql : Condition → Checked Fragment) : FilterTree → Checked Fragment
  | leaf condition => leafToSql condition
  | group op children => do
    let parts ← listToSql leafToSql children
    return match op with
      | .and => Fragment.all parts
      | .or => Fragment.any parts

/-- The condition of each tree of a list. -/
def listToSql (leafToSql : Condition → Checked Fragment) : List FilterTree → Checked (List Fragment)
  | [] => .ok []
  | t :: rest => do
    let part ← t.toSql leafToSql
    return part :: (← listToSql leafToSql rest)

end

end FilterTree

namespace Resolver

/-- The flat filters of a request. -/
def requestFilters (r : Resolver) (limits : Limits) (day : Day)
    (filters : List (Bytes × FilterParam)) : Checked Fragment := do
  return Fragment.all (← filters.mapM fun (field, f) =>
    Condition.ofRequest r limits day { field, op := f.op, value := f.value })

/-- The filter trees of a request. -/
def requestGroups (r : Resolver) (limits : Limits) (day : Day) (groups : List FilterTree) :
    Checked Fragment := do
  return Fragment.all (← FilterTree.listToSql (Condition.ofRequest r limits day) groups)

/-- The filters of the description that always apply. -/
def staticFilters (r : Resolver) (day : Day) : Checked Fragment := do
  return Fragment.all (← (r.table.filters.filter fun f => f.kind == .static).mapM fun f =>
    f.condition.ofDescription r day)

/-- The filter trees of the description. -/
def configuredGroups (r : Resolver) (day : Day) : Checked Fragment := do
  return Fragment.all (← FilterTree.listToSql (Condition.ofDescription r day) r.table.filterGroups)

end Resolver

end TableQuery

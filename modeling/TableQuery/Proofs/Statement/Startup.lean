import TableQuery.Proofs.Field.Counterpart
import TableQuery.Proofs.Sql.Alike
import TableQuery.Proofs.Statement.Aggregate
import TableQuery.Proofs.Validation.Reference

/-!
# Whether a validated description compiles

A description is validated before any request comes, so that a request that asks for nothing in particular does not
fail. Validation looks up what a description refers to, and the statements find it again: under every role, and in
the statement of the walk, where the base table has another name. What validation does not look at are the values
that the description compares with. An operator may refuse the shape of its value, and then it does so in every
statement.

## What is proved

`Table.compiles_iff`: under the dialect that has every feature, the statements of a validated description that
anyone may use are made exactly if its operators take their values, and the walk also needs its start to be a column
of the base table.
-/

namespace TableQuery

variable {r v : Resolver} {qualifier : Bytes} {t : Table} {d : Dialect} {day : Day} {c : Context} {roles : List Bytes}

/-! ## Values of the right shape -/

namespace Operator

/-- An operator takes a value: a list where it compares with several, with two elements for a range, a text where it
makes a pattern of it, and else any value. -/
def Takes (op : Operator) (value : Json) : Prop :=
  match op with
  | isIn | notIn => ∃ values, value = .arr values
  | between => ∃ low high, value = .arr [low, high]
  | contains | startsWith | endsWith => ∃ text, value = .str text
  | _ => True

variable {op : Operator} {column : Fragment} {value : Json} {field : Bytes}

theorem succeeds_apply : Checked.Succeeds (op.apply column value .unknown field) ↔ op.Takes value := by
  have array {β : Type} (f : List Json → Checked β) (next : ∀ values, Checked.Succeeds (f values)) :
      Checked.Succeeds (op.requireArray field value >>= f) ↔ ∃ values, value = .arr values := by
    rw [Checked.succeeds_bind_of_next fun values _ => next values, Checked.Succeeds]
    simp only [requireArray_eq_ok]
  have text {β : Type} (f : Bytes → Checked β) (next : ∀ text, Checked.Succeeds (f text)) :
      Checked.Succeeds (op.requireText field value >>= f) ↔ ∃ text, value = .str text := by
    rw [Checked.succeeds_bind_of_next fun text _ => next text, Checked.Succeeds]
    simp only [requireText_eq_ok]
  cases op with
  | isIn | notIn => exact array _ fun _ => Checked.succeeds_ok _
  | contains | startsWith | endsWith => exact text _ fun _ => Checked.succeeds_ok _
  | between =>
    unfold apply Takes
    constructor
    · rintro ⟨g, h⟩
      obtain ⟨values, hvalues, h⟩ := Checked.bind_eq_ok.mp h
      split at h
      · next low high => exact ⟨low, high, requireArray_eq_ok.mp hvalues⟩
      · cases h
    · rintro ⟨low, high, rfl⟩
      exact ⟨_, rfl⟩
  | _ => exact iff_of_true ⟨_, rfl⟩ trivial

end Operator

/-! ## Filters -/

namespace Condition

/-- The value of a condition can be compared with: the field takes it for a preset, or the operator takes it. -/
def Fits (r : Resolver) (c : Condition) : Prop :=
  ∀ f, r.resolve c.field = some f → r.preset? f c.value = none → c.op.Takes c.value

variable {a : Condition}

theorem succeeds_ofDescription (unknown : r.dialect = .unknown) (found : ∃ f, r.resolve a.field = some f) :
    Checked.Succeeds (a.ofDescription r day) ↔ a.Fits r := by
  obtain ⟨f, found⟩ := found
  have required : r.require a.field "Filter" = .ok f := by
    unfold Resolver.require
    rw [found]
  have fits : a.Fits r ↔ (r.preset? f a.value = none → a.op.Takes a.value) := by
    unfold Fits
    rw [found]
    simp
  unfold ofDescription
  rw [fits, Checked.succeeds_bind_of_eq required, unknown]
  cases r.preset? f a.value with
  | some preset => exact iff_of_true (Checked.succeeds_ok _) nofun
  | none => simpa using Operator.succeeds_apply

end Condition

namespace FilterTree

variable {leafToSql : Condition → Checked Fragment}

mutual

/-- The condition of a tree is made if those of its leaves are. -/
theorem succeeds_toSql (tree : FilterTree) :
    Checked.Succeeds (tree.toSql leafToSql) ↔ ∀ a ∈ tree.leaves, Checked.Succeeds (leafToSql a) := by
  cases tree with
  | leaf a => rw [toSql, leaves, List.forall_mem_singleton]
  | group op children =>
    rw [toSql, leaves, ← succeeds_listToSql children]
    exact Checked.succeeds_bind_pure

theorem succeeds_listToSql (trees : List FilterTree) :
    Checked.Succeeds (listToSql leafToSql trees) ↔ ∀ a ∈ leavesOf trees, Checked.Succeeds (leafToSql a) := by
  cases trees with
  | nil =>
    rw [listToSql]
    exact iff_of_true (Checked.succeeds_ok _) (List.forall_mem_nil _)
  | cons tree rest =>
    rw [listToSql, leavesOf, List.forall_mem_append, ← succeeds_toSql tree, ← succeeds_listToSql rest]
    exact Checked.succeeds_bind fun _ _ => Checked.succeeds_bind_pure

end

end FilterTree

/-! ## References in the statements -/

namespace Table.Refers

theorem scalar?_eq_some {name : Bytes} {f : Field} :
    r.scalar? name = some f ↔ r.resolve name = some f ∧ f.scalar = true := Option.filter_eq_some_iff

/-- What a description refers to is found under other names of the base table. -/
theorem of_describes (h : t.Refers v) (hv : v.Describes [] t d) {d' : Dialect} (hr : r.Describes qualifier t d') :
    t.Refers r := by
  have found {name : Bytes} (h : ∃ f, v.resolve name = some f) : ∃ f, r.resolve name = some f := by
    obtain ⟨f, found⟩ := h
    obtain ⟨g, hg, -⟩ := Resolver.exists_counterpart hv hr found
    exact ⟨g, hg⟩
  have scalar {name : Bytes} (h : ∃ f, v.resolve name = some f ∧ f.scalar = true) :
      ∃ f, r.resolve name = some f ∧ f.scalar = true := by
    obtain ⟨f, found, scalar⟩ := h
    obtain ⟨g, hg, same, -⟩ := Resolver.exists_counterpart hv hr found
    exact ⟨g, hg, same.trans scalar⟩
  have base {name : Bytes} (h : ∃ f, v.resolve name = some f ∧ f.source = .base) :
      ∃ f, r.resolve name = some f ∧ f.source = .base := by
    obtain ⟨f, found, source⟩ := h
    obtain ⟨g, hg, -, stays⟩ := Resolver.exists_counterpart hv hr found
    exact ⟨g, hg, stays source⟩
  constructor
  · exact fun f mem => scalar (h.filters f mem)
  · exact fun b mem => found (h.backend b mem)
  · exact fun leaf mem => found (h.filterGroups leaf mem)
  · simp only [scalar?_eq_some]
    exact fun a mem => scalar (by simpa only [scalar?_eq_some] using h.aggregations a mem)
  · simp only [scalar?_eq_some]
    exact fun g hg name mem => scalar (by simpa only [scalar?_eq_some] using h.groupFields g hg name mem)
  · exact h.having
  · exact h.depth
  · exact fun w hw key mem => base (h.walkKeys w hw key mem)
  · exact fun on => found (h.softDelete on)
  · exact fun on => found (h.tenant on)

/-- What a description refers to is found by every caller. -/
theorem restrict (h : t.Refers r) (roles : List Bytes) : (t.visibleTo roles).Refers (r.restrict roles) := by
  have found {name : Bytes} (h : ∃ f, r.resolve name = some f) : ∃ f, (r.restrict roles).resolve name = some f := by
    obtain ⟨f, found⟩ := h
    exact ⟨f.restrict roles, by rw [Resolver.resolve_restrict, found, Option.map_some]⟩
  have scalar {name : Bytes} (h : ∃ f, r.scalar? name = some f) :
      ∃ f, (r.restrict roles).scalar? name = some f := by
    obtain ⟨f, found⟩ := h
    exact ⟨f.restrict roles, by rw [Resolver.scalar?_restrict, found, Option.map_some]⟩
  constructor
  · intro f mem
    obtain ⟨g, found, scalar⟩ := h.filters f (List.mem_of_mem_filter mem)
    exact ⟨g.restrict roles, by rw [Resolver.resolve_restrict, found, Option.map_some],
      (Field.scalar_restrict roles g).trans scalar⟩
  · exact fun b mem => found (h.backend b mem)
  · exact fun leaf mem => found (h.filterGroups leaf mem)
  · exact fun a mem => scalar (h.aggregations a mem)
  · exact fun g hg name mem => scalar (h.groupFields g hg name mem)
  · exact h.having
  · exact h.depth
  · intro w hw key mem
    obtain ⟨f, found, source⟩ := h.walkKeys w hw key mem
    exact ⟨f.restrict roles, by rw [Resolver.resolve_restrict, found, Option.map_some],
      (Field.source_restrict roles f).trans source⟩
  · exact fun on => found (h.softDelete on)
  · exact fun on => found (h.tenant on)

end Table.Refers

theorem Resolver.exists_require {name : Bytes} (purpose : Bytes) (h : ∃ f, r.resolve name = some f) :
    ∃ f, r.require name purpose = .ok f := by
  obtain ⟨f, found⟩ := h
  unfold require
  rw [found]
  exact ⟨f, rfl⟩

/-! ## The condition of a request -/

namespace Resolver

/-- The conditions that a description always asks for compare with values of the right shape. -/
structure ConditionsFit (r : Resolver) : Prop where
  backend : ∀ b ∈ r.table.backendConditions, b.op.Takes b.value
  static : ∀ f ∈ r.table.filters, f.kind = .static → f.condition.Fits r
  filterGroups : ∀ leaf ∈ FilterTree.leavesOf r.table.filterGroups, leaf.Fits r

section Conditions

variable (unknown : r.dialect = .unknown) (refers : r.table.Refers r)
  (literal : ∀ b ∈ r.table.backendConditions, Context.reference? b.value = none) (tenant : c.tenantId.isSome = true)

section Scope

include unknown refers literal

theorem succeeds_backendConditions :
    Checked.Succeeds (r.backendConditions c) ↔ ∀ b ∈ r.table.backendConditions, b.op.Takes b.value := by
  have one (b : Condition) (mem : b ∈ r.table.backendConditions) :
      Checked.Succeeds (r.backendCondition c b) ↔ b.op.Takes b.value := by
    obtain ⟨f, required⟩ := exists_require "Backend condition" (refers.backend b mem)
    unfold backendCondition
    rw [Checked.succeeds_bind_of_eq required, literal b mem, unknown]
    exact Operator.succeeds_apply
  unfold backendConditions
  rw [Checked.succeeds_bind_pure, Checked.succeeds_mapM]
  exact forall₂_congr one

omit unknown literal in
theorem succeeds_softDelete (includeDeleted : Bool) : Checked.Succeeds (r.softDelete includeDeleted) := by
  unfold softDelete
  split_ifs with off
  · exact Checked.succeeds_ok _
  · rw [Bool.not_eq_true, Bool.or_eq_false_iff, Bool.not_eq_false'] at off
    obtain ⟨f, required⟩ := exists_require "Soft delete" (refers.softDelete off.1)
    rw [Checked.succeeds_bind_of_eq required]
    exact Checked.succeeds_ok _

omit unknown literal in
include tenant in
theorem succeeds_tenant : Checked.Succeeds (r.tenant c) := by
  obtain ⟨id, found⟩ := Option.isSome_iff_exists.mp tenant
  unfold Resolver.tenant
  rw [found]
  split_ifs with off
  · exact Checked.succeeds_ok _
  · rw [Bool.not_eq_true, Bool.not_eq_false'] at off
    obtain ⟨f, required⟩ := exists_require "Tenant isolation" (refers.tenant off)
    dsimp only
    rw [Checked.succeeds_bind_of_eq required]
    exact Checked.succeeds_ok _

include tenant in
theorem succeeds_scope (includeDeleted : Bool) :
    Checked.Succeeds (r.scope c includeDeleted) ↔ ∀ b ∈ r.table.backendConditions, b.op.Takes b.value := by
  obtain ⟨deleted, hdeleted⟩ := succeeds_softDelete refers includeDeleted
  obtain ⟨isolated, hisolated⟩ := succeeds_tenant refers tenant
  rw [← succeeds_backendConditions unknown refers literal]
  refine Checked.succeeds_bind_of_next fun backend _ => ?_
  rw [Checked.succeeds_bind_of_eq hdeleted, Checked.succeeds_bind_of_eq hisolated]
  exact Checked.succeeds_ok _

end Scope

section Filters

include unknown refers

theorem succeeds_staticFilters :
    Checked.Succeeds (r.staticFilters day) ↔ ∀ f ∈ r.table.filters, f.kind = .static → f.condition.Fits r := by
  unfold staticFilters
  rw [Checked.succeeds_bind_pure, Checked.succeeds_mapM]
  constructor
  · intro h f mem static
    obtain ⟨g, found, -⟩ := refers.filters f mem
    exact (Condition.succeeds_ofDescription unknown ⟨g, found⟩).mp (h f (List.mem_filter.mpr ⟨mem, by simp [static]⟩))
  · intro h f mem
    obtain ⟨mem, static⟩ := List.mem_filter.mp mem
    obtain ⟨g, found, -⟩ := refers.filters f mem
    exact (Condition.succeeds_ofDescription unknown ⟨g, found⟩).mpr (h f mem (beq_iff_eq.mp static))

theorem succeeds_configuredGroups : Checked.Succeeds (r.configuredGroups day)
    ↔ ∀ leaf ∈ FilterTree.leavesOf r.table.filterGroups, leaf.Fits r := by
  unfold configuredGroups
  rw [Checked.succeeds_bind_pure, FilterTree.succeeds_listToSql]
  exact forall₂_congr fun leaf mem => Condition.succeeds_ofDescription unknown (refers.filterGroups leaf mem)

end Filters

include unknown refers literal tenant in
/-- A request that asks for nothing has a condition exactly if the description's own conditions can be made. -/
theorem succeeds_condition (pageSize : Option Int64) (includeDeleted : Bool) :
    Checked.Succeeds (r.condition { pageSize, includeDeleted } c day) ↔ r.ConditionsFit := by
  have parts : r.ConditionsFit ↔ (∀ b ∈ r.table.backendConditions, b.op.Takes b.value)
      ∧ (∀ f ∈ r.table.filters, f.kind = .static → f.condition.Fits r)
      ∧ ∀ leaf ∈ FilterTree.leavesOf r.table.filterGroups, leaf.Fits r :=
    ⟨fun h => ⟨h.backend, h.static, h.filterGroups⟩, fun h => ⟨h.1, h.2.1, h.2.2⟩⟩
  rw [parts, ← succeeds_scope unknown refers literal tenant includeDeleted, ← succeeds_staticFilters unknown refers,
    ← succeeds_configuredGroups unknown refers]
  refine Checked.succeeds_bind fun _ _ => Checked.succeeds_bind fun _ _ => Checked.succeeds_bind_of_next fun _ _ => ?_
  exact Checked.succeeds_ok _

end Conditions

/-! ## Selections, aggregates and groups -/

theorem succeeds_subquery (s : Subquery) : Checked.Succeeds (s.toSql .unknown) := by
  unfold Subquery.toSql
  cases s.mode <;> exact Checked.succeeds_ok _

theorem succeeds_selectionOf (unknown : r.dialect = .unknown) (f : Field) : Checked.Succeeds (r.selectionOf f) := by
  unfold selectionOf
  rw [unknown]
  split
  · next s _ =>
    split_ifs
    · exact Checked.succeeds_ok _
    · rw [Checked.succeeds_bind_pure]
      exact succeeds_subquery s
  · exact Checked.succeeds_ok _

section Groups

variable (refers : r.table.Refers r)
include refers

theorem succeeds_aggregate {a : Aggregation} (mem : a ∈ r.table.aggregations) :
    Checked.Succeeds (r.aggregate a) := by
  obtain ⟨f, found⟩ := refers.aggregations a mem
  unfold aggregate
  rw [found]
  exact Checked.succeeds_ok _

theorem succeeds_aggregates : Checked.Succeeds r.aggregates := by
  unfold aggregates
  rw [Checked.succeeds_mapM]
  intro a mem
  rw [Checked.succeeds_bind_pure]
  exact succeeds_aggregate refers mem

theorem succeeds_aggregationPlan (condition : Fragment) : Checked.Succeeds (r.aggregationPlan condition) := by
  unfold aggregationPlan aggregateSelection
  split_ifs
  · exact Checked.succeeds_ok _
  · rw [Checked.succeeds_bind_pure,
      Checked.succeeds_bind_pure]
    exact succeeds_aggregates refers

theorem succeeds_havingCondition {g : GroupBy} (grouped : r.table.groupBy = some g) {h : HavingCondition}
    (mem : h ∈ g.having) : Checked.Succeeds (r.havingCondition h) := by
  obtain ⟨a, listed, named⟩ := refers.having g grouped h mem
  obtain ⟨b, first⟩ : ∃ b, r.table.aggregations.find? (fun a => a.name == h.name) = some b := by
    rw [← Option.isSome_iff_exists, List.find?_isSome]
    exact ⟨a, listed, beq_iff_eq.mpr named⟩
  have known : r.findAggregation h.name = .ok b := by
    unfold findAggregation
    rw [first]
  unfold havingCondition
  rw [Checked.succeeds_bind_of_eq known, Checked.succeeds_bind_pure]
  exact succeeds_aggregate refers (List.mem_of_find?_eq_some first)

theorem succeeds_grouping : Checked.Succeeds r.grouping := by
  unfold grouping having
  cases grouped : r.table.groupBy with
  | none => exact Checked.succeeds_ok _
  | some g =>
    have fields : Checked.Succeeds (g.fields.mapM r.groupField) := by
      rw [Checked.succeeds_mapM]
      intro name mem
      obtain ⟨f, found⟩ := refers.groupFields g grouped name mem
      unfold groupField
      rw [found]
      exact Checked.succeeds_ok _
    have conditions : Checked.Succeeds (g.having.mapM r.havingCondition) := by
      rw [Checked.succeeds_mapM]
      exact fun h mem => succeeds_havingCondition refers grouped mem
    obtain ⟨items, hitems⟩ := succeeds_aggregates refers
    obtain ⟨made, hmade⟩ := conditions
    dsimp only
    rw [Checked.succeeds_bind_of_next]
    · exact fields
    · intro named _
      rw [Checked.succeeds_bind_of_eq hitems, hmade]
      exact Checked.succeeds_ok _

end Groups

end Resolver

/-! ## The walk down a tree -/

/-- What a walk starts with is a column of the base table, and a value that can be compared with. -/
def TreeWalk.Starts (w : TreeWalk) (r : Resolver) : Prop :=
  ∀ start, w.startWith = some start → start.op.Takes start.value ∧ (r.baseColumn? start.field).isSome = true

namespace Resolver

theorem isSome_baseColumn?_iff {name : Bytes} : (r.baseColumn? name).isSome = true
    ↔ ∃ f column, r.resolve name = some f ∧ f.source = .base ∧ f.origin = .column column := by
  rw [Option.isSome_iff_exists, exists_comm]
  exact exists_congr fun column => baseColumn?_eq_some_iff

/-- A field of the base table is declared by a column. -/
theorem Describes.exists_column (hr : r.Describes qualifier t d) {f : Field} (mem : f ∈ r.known)
    (source : f.source = .base) : ∃ column, f.origin = .column column := by
  revert source
  refine hr.forall_known (P := fun f => f.source = .base → ∃ column, f.origin = .column column) ?_ ?_ f mem
  · intro column _ baseNames table _
    exact ⟨column, Field.origin_ofColumn _ _ _ _⟩
  · intro s _ f made source
    unfold Field.ofSubquery at made
    split at made
    · cases made
      cases source
    · obtain ⟨expression, -, made⟩ := Checked.bind_eq_ok.mp made
      cases made
      cases source

theorem isSome_baseColumn?_restrict (r : Resolver) (name : Bytes) :
    ((r.restrict roles).baseColumn? name).isSome = (r.baseColumn? name).isSome := by
  rw [Bool.eq_iff_iff, isSome_baseColumn?_iff, isSome_baseColumn?_iff, resolve_restrict]
  constructor
  · rintro ⟨g, column, found, source, origin⟩
    obtain ⟨f, found', rfl⟩ := Option.map_eq_some_iff.mp found
    rw [Field.source_restrict] at source
    cases declared : f.origin with
    | column c => exact ⟨f, c, found', source, declared⟩
    | subquery s =>
      unfold Field.restrict Field.conceal at origin
      split_ifs at origin
      · rw [declared] at origin
        cases origin
      · rw [declared] at origin
        cases origin
  · rintro ⟨f, column, found, source, origin⟩
    refine ⟨f.restrict roles, if f.isVisibleTo roles then column else column.conceal, ?_, ?_, ?_⟩
    · rw [found, Option.map_some]
    · rw [Field.source_restrict, source]
    · unfold Field.restrict Field.conceal
      split_ifs
      · exact origin
      · rw [origin]
        rfl

theorem succeeds_rootCondition (unknown : r.dialect = .unknown) (w : TreeWalk) (parent : Bytes) :
    Checked.Succeeds (r.rootCondition w parent) ↔ w.Starts r := by
  unfold rootCondition TreeWalk.Starts
  rw [unknown]
  cases w.startWith with
  | none => exact iff_of_true (Checked.succeeds_ok _) nofun
  | some start =>
    simp only [Option.some.injEq, forall_eq']
    cases r.baseColumn? start.field with
    | none => exact iff_of_false (Checked.not_succeeds_error _) fun h => Bool.noConfusion h.2
    | some column =>
      rw [Option.isSome_some, and_iff_left rfl]
      exact Operator.succeeds_apply

section Walk

variable (hr : r.Describes qualifier t d) (unknown : r.dialect = .unknown) (refers : r.table.Refers r) {w : TreeWalk}
  (walks : r.table.walk = some w)
include hr unknown refers walks

/-- A walk is made exactly if it can start. -/
theorem succeeds_walkStatement (scope : Fragment) :
    Checked.Succeeds (r.walkStatement scope) ↔ w.Starts r := by
  have required : r.requireWalk = .ok w := by
    unfold requireWalk
    rw [walks]
    dsimp only
    rw [if_neg (refers.depth w walks), unknown]
    rfl
  have key {key : Bytes} (mem : key ∈ [w.parentKey, w.childKey]) : ∃ column, r.keyColumn key = .ok column := by
    obtain ⟨f, found, source⟩ := refers.walkKeys w walks key mem
    obtain ⟨column, origin⟩ := hr.exists_column (mem_of_resolve found) source
    obtain ⟨column, known⟩ := Option.isSome_iff_exists.mp
      (isSome_baseColumn?_iff.mpr ⟨f, column, found, source, origin⟩)
    unfold keyColumn
    rw [known]
    exact ⟨_, rfl⟩
  obtain ⟨parent, hparent⟩ := key List.mem_cons_self
  obtain ⟨child, hchild⟩ := key (List.mem_cons_of_mem _ List.mem_cons_self)
  unfold walkStatement
  rw [Checked.succeeds_bind_of_eq required]
  dsimp only
  rw [Checked.succeeds_bind_of_eq hparent, Checked.succeeds_bind_of_eq hchild, Checked.succeeds_bind_pure]
  exact succeeds_rootCondition unknown w parent

end Walk

/-! ## What the caller's roles change -/

theorem starts_restrict (r : Resolver) (w : TreeWalk) (roles : List Bytes) : w.Starts (r.restrict roles) ↔ w.Starts r := by
  unfold TreeWalk.Starts
  simp only [isSome_baseColumn?_restrict]

theorem preset?_restrict (r : Resolver) (f : Field) (value : Json) :
    (r.restrict roles).preset? (f.restrict roles) value = r.preset? f value := by
  unfold preset? takesPresets
  rw [Field.type_restrict, Field.name_restrict]
  rfl

end Resolver

theorem Condition.fits_restrict (r : Resolver) (a : Condition) : a.Fits (r.restrict roles) ↔ a.Fits r := by
  unfold Fits
  rw [Resolver.resolve_restrict]
  cases r.resolve a.field with
  | none => simp
  | some f => simp only [Option.map_some, Option.some.injEq, forall_eq', Resolver.preset?_restrict]

/-- No role takes a condition away that a description always asks for. -/
theorem Resolver.conditionsFit_restrict (r : Resolver) (roles : List Bytes) :
    (r.restrict roles).ConditionsFit ↔ r.ConditionsFit := by
  have static (f : ConfiguredFilter) (always : f.kind = .static) :
      f ∈ (r.restrict roles).table.filters ↔ f ∈ r.table.filters := by
    have offered : (f.kind == FilterKind.dynamic) = false := by
      rw [always]
      rfl
    change f ∈ (r.table.visibleTo roles).filters ↔ _
    unfold Table.visibleTo
    simp [offered]
  constructor
  · intro h
    exact {
      backend := h.backend
      static := fun f mem always =>
        (Condition.fits_restrict r _).mp (h.static f ((static f always).mpr mem) always)
      filterGroups := fun leaf mem => (Condition.fits_restrict r leaf).mp (h.filterGroups leaf mem) }
  · intro h
    exact {
      backend := h.backend
      static := fun f mem always =>
        (Condition.fits_restrict r _).mpr (h.static f ((static f always).mp mem) always)
      filterGroups := fun leaf mem => (Condition.fits_restrict r leaf).mpr (h.filterGroups leaf mem) }

/-! ## The statements of a description -/

namespace Table

variable {clock : Instant} {catalog : Option Catalog}

/-- Without an access rule, everyone gets the description. -/
theorem effective_of_isEmpty (unguarded : t.access.isEmpty = true) : t.effective c = .ok (t.visibleTo c.roles) := by
  unfold AccessRule.isEmpty at unguarded
  rw [Bool.and_eq_true, List.isEmpty_iff, List.isEmpty_iff] at unguarded
  have checked : t.checkAccess c = .ok () := by
    unfold checkAccess
    rw [unguarded.1, unguarded.2]
    rfl
  have made : t.effective c = .ok (if t.hasRoleRestrictions then t.visibleTo c.roles else t) := by
    unfold effective
    rw [checked]
    rfl
  rw [made, eq_visibleTo_of_effective made]

section Entry

variable (hr : Resolver.ofTable t .unknown = .ok r) (refers : t.Refers r)
  (literal : ∀ b ∈ t.backendConditions, Context.reference? b.value = none) (tenant : c.tenantId.isSome = true)
  (pageSize : Option Int64) (includeDeleted : Bool)
include hr refers literal tenant

/-- The condition of a request that asks for nothing, for a caller. -/
theorem succeeds_condition_restrict :
    Checked.Succeeds ((r.restrict c.roles).condition { pageSize, includeDeleted } c day) ↔ r.ConditionsFit := by
  have described := Resolver.describes hr
  have restricted := refers.restrict c.roles
  rw [← described.table] at restricted literal
  rw [← Resolver.conditionsFit_restrict r c.roles]
  exact Resolver.succeeds_condition (r := r.restrict c.roles) described.dialect restricted literal tenant pageSize
    includeDeleted

variable (unguarded : t.access.isEmpty = true)
include unguarded

theorem succeeds_compileCount :
    Checked.Succeeds (t.compileCount .unknown { pageSize, includeDeleted } c clock) ↔ r.ConditionsFit := by
  unfold compileCount
  rw [Checked.succeeds_bind_of_eq (effective_of_isEmpty unguarded),
    Checked.succeeds_bind_of_eq (ofTable_visibleTo_eq_ok hr), Checked.succeeds_bind_pure]
  exact succeeds_condition_restrict hr refers literal tenant pageSize includeDeleted

theorem succeeds_compile :
    Checked.Succeeds (t.compile .unknown { pageSize, includeDeleted } c clock) ↔ r.ConditionsFit := by
  have described := Resolver.describes hr
  have restricted := refers.restrict c.roles
  rw [← described.table] at restricted
  unfold compile
  rw [Checked.succeeds_bind_of_eq (effective_of_isEmpty unguarded),
    Checked.succeeds_bind_of_eq (ofTable_visibleTo_eq_ok hr)]
  refine (Checked.succeeds_bind_of_next fun condition _ => ?_).trans
    (succeeds_condition_restrict hr refers literal tenant pageSize includeDeleted)
  have select : Checked.Succeeds
      (((r.restrict c.roles).chosenFields []).mapM (r.restrict c.roles).selectionOf) := by
    rw [Checked.succeeds_mapM]
    exact fun f _ => Resolver.succeeds_selectionOf described.dialect f
  obtain ⟨select, hselect⟩ := select
  obtain ⟨aggregations, haggregations⟩ := Resolver.succeeds_aggregationPlan (r := r.restrict c.roles) restricted condition
  dsimp only
  rw [Checked.succeeds_bind_of_eq hselect]
  -- without a cursor, the page is a window
  refine (Checked.succeeds_bind_of_eq (rfl : (r.restrict c.roles).dataPlan _ _ _ = .ok _)).mpr ?_
  rw [Checked.succeeds_bind_of_eq haggregations]
  exact Checked.succeeds_ok _

theorem succeeds_compileGrouped (grouped : t.groupBy.isSome = true) :
    Checked.Succeeds (t.compileGrouped .unknown { pageSize, includeDeleted } c clock) ↔ r.ConditionsFit := by
  obtain ⟨g, hg⟩ := Option.isSome_iff_exists.mp grouped
  have described := Resolver.describes hr
  have restricted := refers.restrict c.roles
  rw [← described.table] at restricted
  obtain ⟨grouping, hgrouping⟩ := Resolver.succeeds_grouping (r := r.restrict c.roles) restricted
  have kept : (t.visibleTo c.roles).groupBy = some g := hg
  unfold compileGrouped
  rw [Checked.succeeds_bind_of_eq (effective_of_isEmpty unguarded), kept]
  dsimp only
  rw [Checked.succeeds_bind_of_eq (ofTable_visibleTo_eq_ok hr), Checked.succeeds_bind_of_eq hgrouping]
  refine (Checked.succeeds_bind_of_next fun condition _ => ?_).trans
    (succeeds_condition_restrict hr refers literal tenant pageSize includeDeleted)
  exact Checked.succeeds_ok _

end Entry

/-- The statement of the walk, whose fields go by the name of the tree. -/
theorem succeeds_compileTree (hr : Resolver.ofTableAs TreeWalk.treeName t .unknown = .ok r) (refers : t.Refers r)
    (literal : ∀ b ∈ t.backendConditions, Context.reference? b.value = none) (tenant : c.tenantId.isSome = true)
    (unguarded : t.access.isEmpty = true) (p : Params) {w : TreeWalk} (walks : t.walk = some w) :
    Checked.Succeeds (t.compileTree .unknown p c)
      ↔ (∀ b ∈ t.backendConditions, b.op.Takes b.value) ∧ w.Starts r := by
  have made : Resolver.ofTableAs TreeWalk.treeName (t.visibleTo c.roles) .unknown = .ok (r.restrict c.roles) :=
    ofTableAs_visibleTo_eq_ok hr
  have described := Resolver.describes made
  have restricted := refers.restrict c.roles
  have kept : (t.visibleTo c.roles).walk = some w := walks
  rw [← described.table] at restricted kept
  have scope := Resolver.succeeds_scope described.dialect restricted (described.table ▸ literal) tenant p.includeDeleted
  rw [described.table] at scope
  unfold compileTree
  rw [Checked.succeeds_bind_of_eq (effective_of_isEmpty unguarded), Checked.succeeds_bind_of_eq made,
    ← Resolver.starts_restrict r w c.roles]
  refine (Checked.succeeds_bind fun condition _ => ?_).trans (and_congr_left fun _ => scope)
  exact Resolver.succeeds_walkStatement described described.dialect restricted kept condition

/-- A validated description that anyone may use: its statements for a request that asks for nothing are made, under
the dialect that has every feature, exactly if the values of its own conditions fit. The walk asks that of the backend
conditions and of its start, which has to be a column of the base table. -/
theorem compiles_iff (valid : t.validate catalog = .ok ()) (unguarded : t.access.isEmpty = true)
    (literal : ∀ b ∈ t.backendConditions, Context.reference? b.value = none) (tenant : c.tenantId.isSome = true)
    (pageSize : Option Int64) (includeDeleted : Bool) (clock : Instant) :
    ∃ r tree, Resolver.ofTable t .unknown = .ok r ∧ Resolver.ofTableAs TreeWalk.treeName t .unknown = .ok tree
      ∧ (Checked.Succeeds (t.compile .unknown { pageSize, includeDeleted } c clock) ↔ r.ConditionsFit)
      ∧ (Checked.Succeeds (t.compileCount .unknown { pageSize, includeDeleted } c clock) ↔ r.ConditionsFit)
      ∧ (t.groupBy.isSome = true →
        (Checked.Succeeds (t.compileGrouped .unknown { pageSize, includeDeleted } c clock) ↔ r.ConditionsFit))
      ∧ ∀ w, t.walk = some w → (Checked.Succeeds (t.compileTree .unknown { pageSize, includeDeleted } c)
        ↔ (∀ b ∈ t.backendConditions, b.op.Takes b.value) ∧ w.Starts tree) := by
  obtain ⟨r, hr, refers⟩ := refers_of_validate valid
  obtain ⟨tree, htree⟩ := Resolver.exists_ofTableAs hr TreeWalk.treeName
  have refersTree := refers.of_describes (Resolver.describes hr) (Resolver.describes htree)
  exact ⟨r, tree, hr, htree,
    succeeds_compile hr refers literal tenant pageSize includeDeleted unguarded,
    succeeds_compileCount hr refers literal tenant pageSize includeDeleted unguarded,
    succeeds_compileGrouped hr refers literal tenant pageSize includeDeleted unguarded,
    fun w walks => succeeds_compileTree htree refersTree literal tenant unguarded _ walks⟩

/-- The staff under its leaders, from those whose team is the board. -/
def staff : Table where
  name := "staff"
  base := "staff"
  columns := [{ name := "id", type := .number }, { name := "leader", type := .number }]
  joins := [.mk "teams" "team" .left (.columns "team" "id") [{ name := "title" }] []]
  walk := some
    { parentKey := "leader", childKey := "id", maxDepth := 5
      startWith := some { field := "title", op := .eq, value := .str "board" } }

/-- The staff in teams whose title has the number 5 in it. -/
def staffOfFive : Table :=
  { staff with filterGroups := [.leaf { field := "title", op := .contains, value := .int 5 }] }

/-- The staff can be listed and not walked, since a title is not a column of the staff. No number is contained in a
title, and then no list is made either. -/
theorem compiles_iff_staff :
    staff.validate none = .ok () ∧ staffOfFive.validate none = .ok ()
      ∧ Checked.Succeeds (staff.compile .unknown {} { tenantId := some "t" } ⟨0⟩)
      ∧ ¬Checked.Succeeds (staff.compileTree .unknown {} { tenantId := some "t" })
      ∧ ¬Checked.Succeeds (staffOfFive.compile .unknown {} { tenantId := some "t" } ⟨0⟩) := by
  have valid : staff.validate none = .ok () := rfl
  have valid' : staffOfFive.validate none = .ok () := rfl
  obtain ⟨r, tree, hr, htree, rows, -, -, walks⟩ :=
    compiles_iff (c := { tenantId := some "t" }) valid rfl (List.forall_mem_nil _) rfl none false ⟨0⟩
  obtain ⟨r', -, hr', -, rows', -⟩ :=
    compiles_iff (c := { tenantId := some "t" }) valid' rfl (List.forall_mem_nil _) rfl none false ⟨0⟩
  refine ⟨valid, valid', rows.mpr ?_, ?_, ?_⟩
  · constructor <;> rw [(Resolver.describes hr).table] <;> exact List.forall_mem_nil _
  · rw [walks _ rfl]
    rintro ⟨-, starts⟩
    have based := (starts _ rfl).2
    have joined : (Resolver.ofTableAs TreeWalk.treeName staff .unknown).toOption.bind (·.baseColumn? "title") = none :=
      rfl
    rw [htree] at joined
    rw [show tree.baseColumn? "title" = none from joined] at based
    cases based
  · rw [rows']
    intro fits
    have leaf := fits.filterGroups
    rw [(Resolver.describes hr').table] at leaf
    have takes := leaf _ List.mem_cons_self
    have found : (Resolver.ofTable staffOfFive .unknown).toOption.bind (fun r =>
        (r.resolve "title").map fun f => (r.preset? f (.int 5)).isNone) = some true := rfl
    rw [hr'] at found
    obtain ⟨f, found, preset⟩ := Option.map_eq_some_iff.mp found
    obtain ⟨text, different⟩ := takes f found (Option.isNone_iff_eq_none.mp preset)
    cases different

end Table

end TableQuery

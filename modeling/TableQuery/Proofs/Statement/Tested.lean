import TableQuery.Proofs.Field.Counterpart
import TableQuery.Proofs.Field.Expression
import TableQuery.Proofs.Statement.Asked
import TableQuery.Proofs.Validation.Reference

/-!
# Which fields a condition tests

A condition is put together from tests of single fields. Of the conditions that the author of a description asks for,
the tested fields can be told one by one: the scope tests those of the backend conditions whose references find
something, of the mark of deleted rows and of the tenant, and a filter tree tests those of its leaves. What a request
asks for tests only fields with an expression, and so do the static filters of a validated description.

## What is proved

`Resolver.testsJust_scope` and `Resolver.testsJust_configuredGroups` say which fields these conditions test.
`Resolver.tests_staticFilters`, `Condition.tests_ofRequest_hasText` and `Resolver.looksIn_search_hasText` say of the
others that what they test has an expression.
-/

namespace TableQuery

variable {r : Resolver} {qualifier : Bytes} {t : Table} {d : Dialect} {day : Day}

/-! ## Tests of listed fields -/

namespace Fragment

/-- A condition that is put together from tests of these fields, in this order. -/
inductive TestsEach (d : Dialect) : List Field → Fragment → Prop where
  | nothing : TestsEach d [] .empty
  | never : TestsEach d [] .alwaysFalse
  | test {f : Field} {op : Operator} {value : Json} {label : Bytes} {g : Fragment}
      (made : op.apply f.expression value d label = .ok g) : TestsEach d [f] g
  | all {groups : List (List Field)} {parts : List Fragment} (parts_ok : List.Forall₂ (TestsEach d) groups parts) :
      TestsEach d groups.flatten (.all parts)
  | any {groups : List (List Field)} {parts : List Fragment} (parts_ok : List.Forall₂ (TestsEach d) groups parts) :
      TestsEach d groups.flatten (.any parts)

/-- A condition that tests the fields of one kind, and all of them. -/
def TestsJust (d : Dialect) (tested : Field → Prop) (g : Fragment) : Prop :=
  ∃ fields, g.TestsEach d fields ∧ ∀ f, f ∈ fields ↔ tested f

variable {g : Fragment} {tested allowed : Field → Prop}

theorem TestsEach.tests {fields : List Field} (h : g.TestsEach d fields) (ok : ∀ f ∈ fields, allowed f) :
    g.Tests d allowed := by
  induction h using TestsEach.rec
      (motive_2 := fun groups parts _ => (∀ f ∈ groups.flatten, allowed f) → ∀ g ∈ parts, g.Tests d allowed) with
  | nothing => exact .nothing
  | never => exact .never
  | test made => exact .test (ok _ List.mem_cons_self) made
  | all _ ih => exact .all (ih ok)
  | any _ ih => exact .any (ih ok)
  | nil =>
    rename_i mem
    cases mem
  | cons _ _ first rest =>
    rename_i ok g mem
    rw [List.flatten_cons, List.forall_mem_append] at ok
    exact List.forall_mem_cons.mpr ⟨first ok.1, rest ok.2⟩ g mem

theorem TestsJust.tests (h : g.TestsJust d tested) (ok : ∀ f, tested f → allowed f) : g.Tests d allowed := by
  obtain ⟨fields, each, just⟩ := h
  exact each.tests fun f mem => ok f ((just f).mp mem)

theorem TestsJust.congr {tested' : Field → Prop} (h : g.TestsJust d tested) (same : ∀ f, tested f ↔ tested' f) :
    g.TestsJust d tested' := by
  obtain ⟨fields, each, just⟩ := h
  exact ⟨fields, each, fun f => (just f).trans (same f)⟩

theorem testsJust_nothing (none : ∀ f, ¬tested f) : empty.TestsJust d tested :=
  ⟨[], .nothing, fun f => iff_of_false List.not_mem_nil (none f)⟩

theorem testsJust_never (none : ∀ f, ¬tested f) : alwaysFalse.TestsJust d tested :=
  ⟨[], .never, fun f => iff_of_false List.not_mem_nil (none f)⟩

theorem testsJust_apply {op : Operator} {f : Field} {value : Json} {label : Bytes}
    (made : op.apply f.expression value d label = .ok g) : g.TestsJust d (· = f) :=
  ⟨[f], .test made, fun _ => List.mem_singleton⟩

section Parts

variable {α : Type} {testedBy : α → Field → Prop} {l : List α} {parts : List Fragment}

theorem exists_groups (h : List.Forall₂ (fun a g => g.TestsJust d (testedBy a)) l parts) :
    ∃ groups, List.Forall₂ (TestsEach d) groups parts ∧ ∀ f, f ∈ groups.flatten ↔ ∃ a ∈ l, testedBy a f := by
  induction h with
  | nil => exact ⟨[], .nil, fun f => by simp⟩
  | cons head _ ih =>
    obtain ⟨fields, each, just⟩ := head
    obtain ⟨groups, rest, among⟩ := ih
    refine ⟨fields :: groups, .cons each rest, fun f => ?_⟩
    rw [List.flatten_cons, List.mem_append, just, among, List.exists_mem_cons_iff]

/-- A conjunction tests what its parts test, and so does a disjunction. -/
theorem testsJust_all (h : List.Forall₂ (fun a g => g.TestsJust d (testedBy a)) l parts) :
    (all parts).TestsJust d fun f => ∃ a ∈ l, testedBy a f := by
  obtain ⟨groups, each, just⟩ := exists_groups h
  exact ⟨_, .all each, just⟩

theorem testsJust_any (h : List.Forall₂ (fun a g => g.TestsJust d (testedBy a)) l parts) :
    (any parts).TestsJust d fun f => ∃ a ∈ l, testedBy a f := by
  obtain ⟨groups, each, just⟩ := exists_groups h
  exact ⟨_, .any each, just⟩

end Parts

end Fragment

/-! ## Filters -/

theorem DatePreset.testsJust_toSql (p : DatePreset) (day : Day) (f : Field) :
    (p.toSql day f.expression).TestsJust d fun g => g = f ∧ p ≠ .custom := by
  unfold toSql
  cases range : p.rangeOn day with
  | none => exact Fragment.testsJust_nothing fun g tested => tested.2 (Condition.rangeOn_eq_none.mp range)
  | some range' =>
    have lower : Operator.gte.apply f.expression (.str range'.start.toIso) d f.name = .ok _ := rfl
    have upper : Operator.lt.apply f.expression (.str range'.stop.toIso) d f.name = .ok _ := rfl
    have ends : List.Forall₂ (fun f g => Fragment.TestsJust d (· = f) g) [f, f] _ :=
      .cons (Fragment.testsJust_apply lower) (.cons (Fragment.testsJust_apply upper) .nil)
    refine (Fragment.testsJust_all ends).congr fun g => ?_
    have ranged : p ≠ .custom := by
      intro custom
      rw [Condition.rangeOn_eq_none.mpr custom] at range
      cases range
    simp [ranged]

namespace Condition

/-- A leaf tests a field: that of its name, unless its value is the preset without a range. -/
def TestsField (r : Resolver) (c : Condition) (f : Field) : Prop := r.resolve c.field = some f ∧ c.isIgnored r = false

variable {c : Condition} {f : Field} {g : Fragment}

theorem testsField_iff (found : r.resolve c.field = some f) {h : Field} :
    c.TestsField r h ↔ h = f ∧ r.preset? f c.value ≠ some .custom := by
  unfold TestsField isIgnored
  rw [found, Option.some.injEq, eq_comm, beq_eq_false_iff_ne]

theorem Becomes.testsJust (found : r.resolve c.field = some f) {bound : Checked Json}
    (h : c.Becomes r day f bound g) : g.TestsJust r.dialect (c.TestsField r) := by
  cases h with
  | preset p named made =>
    subst made
    refine (p.testsJust_toSql day f).congr fun h => ?_
    rw [testsField_iff found, named, ne_eq, ne_eq, Option.some.injEq]
  | comparison v plain _ applied =>
    refine (Fragment.testsJust_apply applied).congr fun h => ?_
    rw [testsField_iff found, plain]
    simp

theorem testsJust_ofDescription (h : c.ofDescription r day = .ok g) : g.TestsJust r.dialect (c.TestsField r) := by
  obtain ⟨f, found, becomes⟩ := ofDescription_eq_ok h
  exact becomes.testsJust found

/-- A request filters by what has an expression only. -/
theorem tests_ofRequest_hasText (hr : r.Describes qualifier t d) {limits : Limits}
    (h : c.ofRequest r limits day = .ok g) : g.Tests r.dialect Field.HasText := by
  rcases ofRequest_eq_ok h with ⟨-, rfl⟩ | ⟨f, found, allowed, becomes⟩
  · exact .nothing
  · rw [Resolver.mayFilter, Bool.and_eq_true] at allowed
    refine (becomes.testsJust found).tests fun f' tested => ?_
    rw [((testsField_iff found).mp tested).1]
    exact Resolver.hasText_of_scalar hr found allowed.1

end Condition

namespace FilterTree

variable {leafToSql : Condition → Checked Fragment} {testedBy : Condition → Field → Prop}

mutual

/-- A tree tests what its leaves test. -/
theorem testsJust_toSql (leaf : ∀ c g, leafToSql c = .ok g → g.TestsJust d (testedBy c)) {tree : FilterTree}
    {g : Fragment} (h : tree.toSql leafToSql = .ok g) : g.TestsJust d fun f => ∃ c ∈ tree.leaves, testedBy c f := by
  cases tree with
  | leaf c =>
    rw [toSql] at h
    refine (leaf c g h).congr fun f => ?_
    simp [leaves]
  | group op children =>
    rw [toSql] at h
    obtain ⟨parts, hparts, h⟩ := Checked.bind_eq_ok.mp h
    have each := testsJust_listToSql leaf hparts
    have same (f : Field) : (∃ tree ∈ children, ∃ c ∈ tree.leaves, testedBy c f)
        ↔ ∃ c ∈ leavesOf children, testedBy c f := by
      simp only [mem_leavesOf]
      tauto
    cases op with
    | and =>
      cases h
      exact (Fragment.testsJust_all each).congr same
    | or =>
      cases h
      exact (Fragment.testsJust_any each).congr same

theorem testsJust_listToSql (leaf : ∀ c g, leafToSql c = .ok g → g.TestsJust d (testedBy c))
    {trees : List FilterTree} {parts : List Fragment} (h : listToSql leafToSql trees = .ok parts) :
    List.Forall₂ (fun tree g => g.TestsJust d fun f => ∃ c ∈ tree.leaves, testedBy c f) trees parts := by
  cases trees with
  | nil =>
    rw [listToSql] at h
    cases h
    exact .nil
  | cons tree rest =>
    obtain ⟨part, parts, hpart, hparts, rfl⟩ := listToSql_cons_eq_ok h
    exact .cons (testsJust_toSql leaf hpart) (testsJust_listToSql leaf hparts)

end

end FilterTree

/-! ## The scope -/

namespace Resolver

variable {c : Context} {g : Fragment}

/-- The scope of a request tests a field: that of a backend condition, unless its reference finds nothing, the mark
of deleted rows, unless the request includes them, or the tenant's. -/
inductive ScopeTests (r : Resolver) (c : Context) (includeDeleted : Bool) (f : Field) : Prop where
  | backend (b : Condition) (mem : b ∈ r.table.backendConditions) (found : r.resolve b.field = some f)
      (present : c.replaced b.value ≠ none)
  | softDelete (on : r.table.softDelete.enabled = true) (excluded : includeDeleted = false)
      (found : r.resolve r.table.softDelete.field = some f)
  | tenant (on : r.table.tenant.enabled = true) (found : r.resolve r.table.tenant.field = some f)

theorem testsJust_found {name : Bytes} {f : Field} (found : r.resolve name = some f)
    (h : g.TestsJust d (· = f)) : g.TestsJust d fun f => r.resolve name = some f := by
  refine h.congr fun f' => ?_
  rw [found, Option.some.injEq, eq_comm]

theorem testsJust_backendCondition {b : Condition} (h : r.backendCondition c b = .ok g) :
    g.TestsJust r.dialect fun f => r.resolve b.field = some f ∧ c.replaced b.value ≠ none := by
  obtain ⟨f, found, ⟨absent, rfl⟩ | ⟨v, replaced, applied⟩⟩ := backendCondition_eq_ok h
  · exact Fragment.testsJust_never fun f tested => tested.2 absent
  · refine (testsJust_found found (Fragment.testsJust_apply applied)).congr fun f => ?_
    rw [replaced, and_iff_left (Option.some_ne_none v)]

theorem testsJust_softDelete {includeDeleted : Bool} (h : r.softDelete includeDeleted = .ok g) :
    g.TestsJust r.dialect fun f => r.table.softDelete.enabled = true ∧ includeDeleted = false
      ∧ r.resolve r.table.softDelete.field = some f := by
  rcases softDelete_eq_ok h with ⟨included, rfl⟩ | ⟨on, excluded, f, found, applied⟩
  · refine Fragment.testsJust_nothing ?_
    rintro f ⟨on, excluded, -⟩
    rw [included on] at excluded
    cases excluded
  · refine (testsJust_found found (Fragment.testsJust_apply applied)).congr fun f => ?_
    rw [and_iff_right on, and_iff_right excluded]

theorem testsJust_tenant (h : r.tenant c = .ok g) :
    g.TestsJust r.dialect fun f => r.table.tenant.enabled = true ∧ r.resolve r.table.tenant.field = some f := by
  rcases tenant_eq_ok h with ⟨off, rfl⟩ | ⟨on, id, f, -, found, applied⟩
  · refine Fragment.testsJust_nothing ?_
    rintro f ⟨on, -⟩
    rw [off] at on
    cases on
  · refine (testsJust_found found (Fragment.testsJust_apply applied)).congr fun f => ?_
    rw [and_iff_right on]

theorem testsJust_scope {includeDeleted : Bool} (h : r.scope c includeDeleted = .ok g) :
    g.TestsJust r.dialect (r.ScopeTests c includeDeleted) := by
  obtain ⟨backend, deleted, tenant, hbackend, hdeleted, htenant, rfl⟩ := scope_eq_ok h
  unfold backendConditions at hbackend
  obtain ⟨parts, hparts, hbackend⟩ := Checked.bind_eq_ok.mp hbackend
  cases hbackend
  have conditions := Fragment.testsJust_all
    ((Checked.mapM_eq_ok.mp hparts).imp fun _ _ => testsJust_backendCondition)
  have three : List.Forall₂ (fun tested g => Fragment.TestsJust r.dialect tested g) [_, _, _] _ :=
    .cons conditions (.cons (testsJust_softDelete hdeleted) (.cons (testsJust_tenant htenant) .nil))
  refine (Fragment.testsJust_all three).congr fun f => ?_
  simp only [List.mem_cons, List.not_mem_nil, or_false, exists_eq_or_imp, exists_eq_left]
  constructor
  · rintro (⟨b, mem, found, present⟩ | ⟨on, excluded, found⟩ | ⟨on, found⟩)
    · exact .backend b mem found present
    · exact .softDelete on excluded found
    · exact .tenant on found
  · rintro (⟨b, mem, found, present⟩ | ⟨on, excluded, found⟩ | ⟨on, found⟩)
    · exact .inl ⟨b, mem, found, present⟩
    · exact .inr (.inl ⟨on, excluded, found⟩)
    · exact .inr (.inr ⟨on, found⟩)

/-! ## The other conditions of a description -/

/-- A filter tree of the description tests a field. -/
def TreesTest (r : Resolver) (f : Field) : Prop :=
  ∃ leaf ∈ FilterTree.leavesOf r.table.filterGroups, leaf.TestsField r f

theorem testsJust_configuredGroups (h : r.configuredGroups day = .ok g) : g.TestsJust r.dialect r.TreesTest := by
  unfold configuredGroups at h
  obtain ⟨parts, hparts, h⟩ := Checked.bind_eq_ok.mp h
  cases h
  have each := FilterTree.testsJust_listToSql (fun _ _ => Condition.testsJust_ofDescription) hparts
  refine (Fragment.testsJust_all each).congr fun f => ?_
  simp only [TreesTest, FilterTree.mem_leavesOf]
  tauto

/-- The fields of static filters were checked when the description was validated, for another dialect. -/
theorem tests_staticFilters {catalog : Option Catalog} {e : Table} (valid : t.validate catalog = .ok ())
    (he : t.effective c = .ok e) (hr : ofTable e d = .ok r) (h : r.staticFilters day = .ok g) :
    g.Tests r.dialect Field.HasText := by
  obtain ⟨v, hv, refers⟩ := Table.refers_of_validate valid
  obtain ⟨written, hw, rfl⟩ := Table.fields_of_effective he hr
  refine forall_staticFilters Fragment.composes_tests (fun filter among part made => ?_) h
  have listed : filter ∈ t.filters := by
    rw [← (describes hw).table]
    exact List.mem_of_mem_filter among
  obtain ⟨f, found, scalar⟩ := refers.filters filter listed
  obtain ⟨f', found', same, -⟩ := exists_counterpart (describes hv) (describes hw) found
  refine (Condition.testsJust_ofDescription made).tests fun tested is => ?_
  have restricted := is.1
  rw [resolve_restrict, found', Option.map_some, Option.some.injEq] at restricted
  refine hasText_of_scalar (describes hr) is.1 ?_
  rw [← restricted, Field.scalar_restrict, same, scalar]

/-! ## Searches -/

theorem looksIn_search_hasText (hr : r.Describes qualifier t d) {limits : Limits} {asked : Option Bytes}
    (h : r.search limits asked = .ok g) : ∃ term fields, r.LooksIn term fields g ∧ ∀ f ∈ fields, f.HasText := by
  rcases search_cases h with ⟨s, -, term, -, -, -, -, -, looks⟩ | ⟨rfl, -⟩
  · refine ⟨term, r.searchFields s, looks, fun f mem => ?_⟩
    obtain ⟨name, -, found⟩ := List.mem_filterMap.mp mem
    obtain ⟨found, searchable⟩ := Option.filter_eq_some_iff.mp found
    exact hasText_of_scalar hr found searchable
  · exact ⟨[], [], .nowhere, List.forall_mem_nil _⟩

end Resolver

end TableQuery

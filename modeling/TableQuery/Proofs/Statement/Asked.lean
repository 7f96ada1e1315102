import TableQuery.Proofs.Access.Visibility
import TableQuery.Proofs.Sql.Nesting
import TableQuery.Proofs.Statement.Compiled
import TableQuery.Validation.Check

/-!
# Which fields a request tests

A request adds to a statement the conditions of its filters, of its filter trees, of its search and of its cursor
token, and the order it asks for. Each is put together from tests of single fields (`Fragment.Tests`).

A column that the caller may not see can be neither filtered nor sorted by, so all of these but the search are of
fields that the caller may see. The search is by the fields that the description lists. A restricted column is
taken off that list by its own name; a name with a qualifier in front stays, and finds the column all the same.

## What is proved

`Table.asked_fields`: in every statement of a request the filters, the continuation and the order test only what
the caller may see, and the search tests a restricted column exactly if the description lists it by another name
than its own.
-/

namespace TableQuery

variable {roles : List Bytes} {t e : Table} {d : Dialect} {r : Resolver} {qualifier : Bytes}

/-! ## Tests of fields -/

/-- A condition that is put together from tests of fields of one kind. -/
inductive Fragment.Tests (d : Dialect) (allowed : Field → Prop) : Fragment → Prop where
  | nothing : Tests d allowed .empty
  | never : Tests d allowed .alwaysFalse
  | test {f : Field} {op : Operator} {value : Json} {label : Bytes} {g : Fragment} (ok : allowed f)
      (made : op.apply f.expression value d label = .ok g) : Tests d allowed g
  | all {parts : List Fragment} (parts_ok : ∀ g ∈ parts, Tests d allowed g) : Tests d allowed (.all parts)
  | any {parts : List Fragment} (parts_ok : ∀ g ∈ parts, Tests d allowed g) : Tests d allowed (.any parts)

theorem Fragment.composes_tests {allowed : Field → Prop} : Composes (Tests d allowed) := ⟨.all, .any⟩

/-- A condition that looks for a term in the texts of the listed fields: in each of them, or in all at once by the
dialect's own search, in the language of the description. -/
inductive Resolver.LooksIn (r : Resolver) (term : Bytes) : List Field → Fragment → Prop where
  | nowhere : LooksIn r term [] .empty
  | each {fields : List Field} {parts : List Fragment} (some : fields ≠ [])
      (made : fields.mapM (fun f => Operator.contains.apply (r.textOf f) (.str term) r.dialect f.name) = .ok parts) :
      LooksIn r term fields (.any parts)
  | together {fields : List Field} {language : Bytes} {g : Fragment} (some : fields ≠ [])
      (described : r.table.search.map Search.language = .some language)
      (made : r.fullText language term fields = .ok g) : LooksIn r term fields g

namespace Resolver

/-- A field that some name finds and whose column a caller with these roles may see. -/
def Shows (r : Resolver) (roles : List Bytes) (f : Field) : Prop :=
  (∃ name, r.resolve name = some f) ∧ f.isVisibleTo roles = true

/-! ## Filters -/

/-- A column that a caller may not see is one of the names that are taken from the caller's description. -/
theorem Describes.mem_invisibleNames (hr : r.Describes qualifier t d) {f : Field} (mem : f ∈ r.known)
    (invisible : f.isVisibleTo roles = false) : f.name ∈ Column.invisibleNames roles t.allColumns := by
  revert invisible
  refine hr.forall_known (P := fun f => f.isVisibleTo roles = false → f.name ∈ Column.invisibleNames roles
    t.allColumns) ?_ ?_ f mem
  · intro c mem baseNames table invisible
    rw [ofColumn_name]
    refine List.mem_map_of_mem (List.mem_filter.mpr ⟨mem, ?_⟩)
    rw [Field.isVisibleTo, Field.origin_ofColumn] at invisible
    rw [Bool.not_eq_true']
    exact invisible
  · intro s _ f made invisible
    rw [Field.isVisibleTo_ofSubquery made] at invisible
    cases invisible

/-- A column has one value in each row. -/
theorem Describes.scalar_of_not_visible (hr : r.Describes qualifier t d) {f : Field} (mem : f ∈ r.known)
    (invisible : f.isVisibleTo roles = false) : f.scalar = true := by
  revert invisible
  refine hr.forall_known (P := fun f => f.isVisibleTo roles = false → f.scalar = true) ?_ ?_ f mem
  · intro c _ baseNames table _
    unfold Field.ofColumn
    split_ifs <;> rfl
  · intro s _ f made invisible
    rw [Field.isVisibleTo_ofSubquery made] at invisible
    cases invisible

section Filters

variable (hr : r.Describes qualifier t d)
include hr

/-- What a request may filter by is what the caller may see: the filters on offer that name a restricted column
are taken off the description. -/
theorem shows_of_mayFilter {name : Bytes} {f : Field} (found : r.resolve name = some f)
    (h : (r.restrict roles).mayFilter (f.restrict roles) = true) : r.Shows roles f := by
  refine ⟨⟨name, found⟩, ?_⟩
  by_contra invisible
  unfold mayFilter at h
  rw [Bool.and_eq_true, Bool.or_eq_true] at h
  rcases h.2 with filterable | offered
  · exact invisible (Field.isVisibleTo_of_filterable filterable)
  · unfold isDynamicFilter at offered
    rw [List.any_eq_true] at offered
    obtain ⟨filter, mem, offers⟩ := offered
    rw [Bool.and_eq_true, beq_iff_eq, beq_iff_eq, Field.name_restrict] at offers
    have restricted := hr.mem_invisibleNames (mem_of_resolve found) (Bool.not_eq_true _ ▸ invisible)
    have kept := (List.mem_filter.mp mem).2
    rw [hr.table, offers.1, offers.2] at kept
    simp [restricted] at kept

theorem tests_ofRequest {limits : Limits} {day : Day} {c : Condition} {g : Fragment}
    (h : Condition.ofRequest (r.restrict roles) limits day c = .ok g) : g.Tests r.dialect (r.Shows roles) := by
  rcases Condition.ofRequest_eq_ok h with ⟨-, rfl⟩ | ⟨f', found', allowed, becomes⟩
  · exact .nothing
  · rw [resolve_restrict] at found'
    obtain ⟨f, found, rfl⟩ := Option.map_eq_some_iff.mp found'
    have shows' : r.Shows roles f := shows_of_mayFilter hr found allowed
    cases becomes with
    | preset p _ made =>
      subst made
      unfold DatePreset.toSql
      cases p.rangeOn day with
      | none => exact .nothing
      | some range =>
        rw [Field.expression_restrict]
        have lower : Operator.gte.apply f.expression (.str range.start.toIso) r.dialect f.name = .ok _ := rfl
        have upper : Operator.lt.apply f.expression (.str range.stop.toIso) r.dialect f.name = .ok _ := rfl
        exact .all (List.forall_mem_cons.mpr
          ⟨.test shows' lower, List.forall_mem_singleton.mpr (.test shows' upper)⟩)
    | comparison v _ _ applied =>
      rw [Field.expression_restrict] at applied
      exact .test shows' applied

end Filters

/-! ## Orders and continuations -/

/-- A term of an order is made of a field that the caller may see. -/
def SortsByShown (r : Resolver) (roles : List Bytes) (term : OrderTerm) : Prop :=
  ∃ f, r.Shows roles f ∧ term.expression = f.expression

theorem sortsByShown_of_resolve {name : Bytes} {f : Field} {term : OrderTerm}
    (found : (r.restrict roles).resolve name = some f) (sortable : f.supports .sort = true)
    (expressed : term.expression = f.expression) : r.SortsByShown roles term := by
  rw [resolve_restrict] at found
  obtain ⟨g, hg, rfl⟩ := Option.map_eq_some_iff.mp found
  rw [Field.expression_restrict] at expressed
  exact ⟨g, ⟨⟨name, hg⟩, Field.isVisibleTo_of_supports_sort sortable⟩, expressed⟩

/-- The order of a page by number drops what cannot be sorted by, in the description's own order as well. -/
theorem mem_lenientOrder {requested : List SortKey} {term : OrderTerm} (mem : term ∈ r.lenientOrder requested) :
    ∃ name f, r.resolve name = some f ∧ f.supports .sort = true ∧ term.expression = f.expression := by
  have ofKeys {keys : List SortKey} (mem : term ∈ keys.filterMap r.lenientTerm) :
      ∃ name f, r.resolve name = some f ∧ f.supports .sort = true ∧ term.expression = f.expression := by
    obtain ⟨key, -, made⟩ := List.mem_filterMap.mp mem
    unfold lenientTerm at made
    obtain ⟨f, found, rfl⟩ := Option.map_eq_some_iff.mp made
    obtain ⟨found, sortable⟩ := Option.filter_eq_some_iff.mp found
    exact ⟨key.field, f, found, sortable, rfl⟩
  unfold lenientOrder defaultOrder at mem
  dsimp only at mem
  split_ifs at mem
  · exact ofKeys mem
  · exact ofKeys mem

theorem sortsByShown_lenientOrder {requested : List SortKey} {term : OrderTerm}
    (mem : term ∈ (r.restrict roles).lenientOrder requested) : r.SortsByShown roles term := by
  obtain ⟨name, f, found, sortable, expressed⟩ := mem_lenientOrder mem
  exact sortsByShown_of_resolve found sortable expressed

theorem sortsByShown_activeOrder {requested : List SortKey} {order : List OrderTerm} {term : OrderTerm}
    (h : Keyset.activeOrder (r.restrict roles) requested = .ok order) (mem : term ∈ order) :
    r.SortsByShown roles term := by
  obtain ⟨name, f, found, sortable, -, -, expressed⟩ := Keyset.mem_activeOrder h mem
  exact sortsByShown_of_resolve found sortable expressed

end Resolver

namespace Keyset

variable {allowed : Field → Prop}

/-- What a key of a boundary asks of a row are tests of the field of its term. -/
theorem Key.tests {k : Key} {f : Field} (ok : allowed f) (expressed : k.term.expression = f.expression) :
    k.equal.Tests d allowed ∧ ∀ g, k.after? d = some g → g.Tests d allowed := by
  have isNull : (k.term.expression.add " IS NULL").Tests d allowed := by
    rw [expressed]
    exact .test ok (show Operator.isNull.apply f.expression .null d f.name = .ok _ from rfl)
  have isNotNull : (k.term.expression.add " IS NOT NULL").Tests d allowed := by
    rw [expressed]
    exact .test ok (show Operator.isNotNull.apply f.expression .null d f.name = .ok _ from rfl)
  have beyond (descending : Bool) :
      (Operator.binary k.term.expression (if descending then "<" else ">") k.value).Tests d allowed := by
    rw [expressed]
    cases descending with
    | true => exact .test ok (show Operator.lt.apply f.expression k.value d f.name = .ok _ from rfl)
    | false => exact .test ok (show Operator.gt.apply f.expression k.value d f.name = .ok _ from rfl)
  constructor
  · unfold equal
    by_cases null : k.value.isNull = true
    · rw [if_pos null]
      exact isNull
    · rw [if_neg null, expressed]
      have made : Operator.eq.apply f.expression k.value d f.name
          = .ok (Operator.binary f.expression "=" k.value) := by
        unfold Operator.apply
        dsimp only
        rw [if_neg null]
      exact .test ok made
  · intro g h
    unfold after? at h
    dsimp only at h
    have beyond := beyond (k.term.direction == .desc)
    generalize Operator.binary k.term.expression (if k.term.direction == .desc then "<" else ">") k.value
      = condition at h beyond
    split_ifs at h
    · cases h
      exact isNotNull
    · cases h
      exact .any (List.forall_mem_cons.mpr ⟨beyond, List.forall_mem_singleton.mpr isNull⟩)
    · cases h
      exact beyond

/-- The continuation after any boundary tests the fields of the order, whatever the boundary holds. -/
theorem tests_continuationAfter {order : List OrderTerm}
    (horder : ∀ t ∈ order, ∃ f, allowed f ∧ t.expression = f.expression) (boundary : Json) :
    (continuationAfter d order boundary).Tests d allowed := by
  refine forall_continuationAfter Fragment.composes_tests .nothing .never fun k mem => ?_
  obtain ⟨f, ok, expressed⟩ := horder k.term (mem_keysOf mem).1
  exact Key.tests ok expressed

theorem tests_continuation {cursor : Option Bytes} {pageSize : Option Int64} {requested : List SortKey}
    {k : Keyset} (h : ofRequest (r.restrict roles) cursor pageSize requested = .ok k) :
    k.continuation.Tests r.dialect (r.Shows roles) ∧ ∀ term ∈ k.order, r.SortsByShown roles term := by
  have shown : ∀ term ∈ k.order, r.SortsByShown roles term :=
    fun term mem => Resolver.sortsByShown_activeOrder (activeOrder_of_ofRequest h) mem
  refine ⟨?_, shown⟩
  rcases continuation_of_ofRequest h with none | ⟨boundary, -, after⟩
  · rw [none]
    exact .nothing
  · rw [after]
    exact tests_continuationAfter shown boundary

end Keyset

/-! ## Searches -/

namespace Resolver

theorem searchFields_restrict (r : Resolver) (s : Search) :
    (r.restrict roles).searchFields s = (r.searchFields s).map (Field.restrict roles) := by
  unfold searchFields
  rw [List.map_filterMap]
  refine List.filterMap_congr fun name _ => ?_
  rw [resolve_restrict]
  cases r.resolve name with
  | none => rfl
  | some f =>
    have supports : (f.restrict roles).supports .search = f.supports .search := Field.scalar_restrict roles f
    simp only [Option.map_some, Option.filter_some, supports]
    split_ifs <;> rfl

theorem textOf_restrict (r : Resolver) (f : Field) :
    (r.restrict roles).textOf (f.restrict roles) = r.textOf f := by
  unfold textOf
  rw [Field.type_restrict, Field.expression_restrict]
  rfl

theorem language_restrict (r : Resolver) :
    (r.restrict roles).table.search.map Search.language = r.table.search.map Search.language := by
  show (r.table.search.map _).map Search.language = _
  rw [Option.map_map]
  rfl

/-- A search of the fields that a caller gets is a search of the fields as written. -/
theorem looksIn_of_restrict {term : Bytes} {fields : List Field} {g : Fragment}
    (h : (r.restrict roles).LooksIn term (fields.map (Field.restrict roles)) g) : r.LooksIn term fields g := by
  generalize restricted : fields.map (Field.restrict roles) = looked at h
  cases h with
  | nowhere =>
    rw [List.map_eq_nil_iff.mp restricted]
    exact .nowhere
  | each some made =>
    subst restricted
    rw [List.mapM_map] at made
    simp only [Function.comp_def, textOf_restrict, Field.name_restrict] at made
    exact .each (fun none => some (congrArg _ none)) made
  | together some described made =>
    subst restricted
    rw [language_restrict] at described
    unfold fullText at made
    simp only [List.map_map, Function.comp_def, textOf_restrict] at made
    exact .together (fun none => some (congrArg _ none)) described made

/-- A search looks in every field of the description that can be searched, or it is off and says nothing. -/
theorem search_cases {limits : Limits} {asked : Option Bytes} {g : Fragment} (h : r.search limits asked = .ok g) :
    (∃ s word term, r.table.search = some s ∧ asked = some word ∧ s.enabled = true
        ∧ limits.checkSearchTerm word = .ok term ∧ term ≠ [] ∧ r.LooksIn term (r.searchFields s) g)
      ∨ g = .empty ∧ ∀ s word term, r.table.search = some s → asked = some word → s.enabled = true →
        limits.checkSearchTerm word = .ok term → term ≠ [] → s.fields = [] := by
  unfold search at h
  cases asked with
  | none =>
    cases h
    exact .inr ⟨rfl, nofun⟩
  | some word =>
    cases described : r.table.search with
    | none =>
      rw [described] at h
      cases h
      exact .inr ⟨rfl, nofun⟩
    | some s =>
      rw [described] at h
      dsimp only at h
      by_cases off : (!s.enabled || s.fields.isEmpty) = true
      · rw [if_pos off] at h
        cases h
        refine .inr ⟨rfl, ?_⟩
        rintro s' word' term ⟨⟩ ⟨⟩ enabled - -
        rw [enabled, Bool.not_true, Bool.false_or, List.isEmpty_iff] at off
        exact off
      · rw [if_neg off] at h
        obtain ⟨term, checked, h⟩ := Checked.bind_eq_ok.mp h
        have enabled : s.enabled = true := by
          by_contra disabled
          rw [Bool.not_eq_true] at disabled
          simp [disabled] at off
        by_cases blank : term = []
        · rw [blank, List.isEmpty_nil, Bool.true_or, if_pos rfl] at h
          cases h
          refine .inr ⟨rfl, ?_⟩
          rintro s' word' term' ⟨⟩ ⟨⟩ - checked' filled
          rw [checked] at checked'
          cases checked'
          exact absurd blank filled
        · refine .inl ⟨s, word, term, rfl, rfl, enabled, checked, blank, ?_⟩
          rw [List.isEmpty_eq_false_iff.mpr blank, Bool.false_or] at h
          by_cases none : r.searchFields s = []
          · rw [none, List.isEmpty_nil, if_pos rfl] at h
            cases h
            rw [none]
            exact .nowhere
          · rw [List.isEmpty_eq_false_iff.mpr none, if_neg Bool.false_ne_true] at h
            split_ifs at h
            · exact .together none (congrArg (Option.map Search.language) described) h
            · obtain ⟨parts, made, h⟩ := Checked.bind_eq_ok.mp h
              cases h
              exact .each none made

section Search

variable (hr : r.Describes qualifier t d)
include hr

/-- A name that finds a field of another name is not one of those taken from the description: each of these is the
name of a column, and a name finds the column that it is the name of. -/
theorem not_mem_invisibleNames {name : Bytes} {f : Field} (found : r.resolve name = some f)
    (other : name ≠ f.name) : name ∉ Column.invisibleNames roles t.allColumns := by
  intro mem
  obtain ⟨c, hc, rfl⟩ := List.mem_map.mp mem
  obtain ⟨g, hg⟩ := hr.exists_resolvePlain (List.mem_of_mem_filter hc)
  unfold resolve at found
  rw [hg, Option.some_or, Option.some.injEq] at found
  apply other
  rw [← found, (resolvePlain_eq_some hg).2]

/-- A restricted column is among the fields of a search exactly if the description lists it by another name than
its own. -/
theorem mem_searchFields_iff {s : Search} {f : Field} (invisible : f.isVisibleTo roles = false) :
    f ∈ r.searchFields (Table.searchWithout (Column.invisibleNames roles t.allColumns) s)
      ↔ ∃ name ∈ s.fields, name ≠ f.name ∧ r.resolve name = some f := by
  unfold searchFields Table.searchWithout
  dsimp only
  constructor
  · intro mem
    obtain ⟨name, listed, found⟩ := List.mem_filterMap.mp mem
    obtain ⟨listed, kept⟩ := List.mem_filter.mp listed
    have found := (Option.filter_eq_some_iff.mp found).1
    refine ⟨name, listed, ?_, found⟩
    rintro rfl
    have taken := hr.mem_invisibleNames (mem_of_resolve found) invisible
    simp [taken] at kept
  · rintro ⟨name, listed, other, found⟩
    have kept := @not_mem_invisibleNames roles _ _ _ _ hr _ _ found other
    refine List.mem_filterMap.mpr ⟨name, List.mem_filter.mpr ⟨listed, by simp [kept]⟩, ?_⟩
    have scalar : f.supports .search = true := hr.scalar_of_not_visible (mem_of_resolve found) invisible
    rw [found, Option.filter_some, if_pos scalar]

end Search

end Resolver

/-- A request has the table searched, and the description lists a name for its searches. -/
def Table.ListsForSearch (t : Table) (p : Params) (name : Bytes) : Prop :=
  ∃ s asked term, t.search = some s ∧ s.enabled = true ∧ name ∈ s.fields ∧ p.search = some asked
    ∧ ({} : Limits).checkSearchTerm asked = .ok term ∧ term ≠ []

namespace Resolver

/-- The condition of a search looks in a restricted column exactly if the description lists it by another name than
its own. -/
theorem looksIn_search (hr : r.Describes qualifier t d) {p : Params} {g : Fragment}
    (h : (r.restrict roles).search {} p.search = .ok g) :
    ∃ term fields, r.LooksIn term fields g ∧ ∀ f, f.isVisibleTo roles = false →
      (f ∈ fields ↔ ∃ name, t.ListsForSearch p name ∧ name ≠ f.name ∧ r.resolve name = some f) := by
  have described : (r.restrict roles).table.search
      = t.search.map (Table.searchWithout (Column.invisibleNames roles t.allColumns)) := by
    rw [← hr.table]
    rfl
  rcases search_cases h with ⟨s', word, term, found, asked, enabled, checked, filled, looks⟩ | ⟨rfl, nothing⟩
  · rw [described] at found
    obtain ⟨s, hs, rfl⟩ := Option.map_eq_some_iff.mp found
    rw [searchFields_restrict] at looks
    refine ⟨term, _, looksIn_of_restrict looks, ?_⟩
    intro f invisible
    rw [mem_searchFields_iff hr invisible]
    constructor
    · rintro ⟨name, listed, other⟩
      exact ⟨name, ⟨s, word, term, hs, enabled, listed, asked, checked, filled⟩, other⟩
    · rintro ⟨name, ⟨s₁, -, -, hs₁, -, listed, -⟩, other⟩
      rw [hs] at hs₁
      cases hs₁
      exact ⟨name, listed, other⟩
  · refine ⟨[], [], .nowhere, ?_⟩
    intro f invisible
    constructor
    · intro mem
      cases mem
    · rintro ⟨name, ⟨s, word, term, hs, enabled, listed, asked, checked, filled⟩, other, found⟩
      rw [hs] at described
      have none := nothing _ word term described asked enabled checked filled
      have kept := @not_mem_invisibleNames roles _ _ _ _ hr _ _ found other
      have left : name ∈ (Table.searchWithout (Column.invisibleNames roles t.allColumns) s).fields :=
        List.mem_filter.mpr ⟨listed, by simp [kept]⟩
      rw [none] at left
      cases left

end Resolver

/-! ## The statements of a request -/

/-- The parts of a statement's condition and order that a request turns on. -/
structure Asked where
  filters : Fragment
  groups : Fragment
  search : Fragment
  /-- Empty but on a page by cursor. -/
  continuation : Fragment := .empty
  order : List OrderTerm := []

namespace Asked

/-- The statement filters by what the description and the context ask for and by what the request asks for, and has
the request's order. -/
structure In (a : Asked) (r : Resolver) (p : Params) (c : Context) (day : Day) (plan : Plan) : Prop where
  condition : ∃ scope static groups,
    r.scope c p.includeDeleted = .ok scope ∧ r.staticFilters day = .ok static ∧ r.configuredGroups day = .ok groups
      ∧ plan.condition = .all [.all [scope, static, groups, a.filters, a.groups, a.search], a.continuation]
  order : plan.order = a.order

/-- The request tests only fields that a caller with these roles may see, but for its search: that looks in the
field of a restricted column as well if the description lists it by another name than its own. -/
structure Tests (a : Asked) (t : Table) (r : Resolver) (p : Params) (roles : List Bytes) : Prop where
  filters : a.filters.Tests r.dialect (r.Shows roles)
  groups : a.groups.Tests r.dialect (r.Shows roles)
  continuation : a.continuation.Tests r.dialect (r.Shows roles)
  order : ∀ term ∈ a.order, r.SortsByShown roles term
  search : ∃ term fields, r.LooksIn term fields a.search ∧ ∀ f, f.isVisibleTo roles = false →
    (f ∈ fields ↔ ∃ name, t.ListsForSearch p name ∧ name ≠ f.name ∧ r.resolve name = some f)

end Asked

/-- A conjunction beside nothing is as it was. -/
theorem Fragment.all_all_empty (parts : List Fragment) : all [all parts, .empty] = all parts := by
  unfold all
  calc combine " AND " .conjunction .disjunction [combine " AND " .conjunction .disjunction parts, .empty]
    _ = combine " AND " .conjunction .disjunction (parts ++ [.empty]) := combine_insert (by decide) [] parts [.empty]
    _ = combine " AND " .conjunction .disjunction (parts ++ []) := combine_insert_of_isEmpty rfl parts []
    _ = combine " AND " .conjunction .disjunction parts := by rw [List.append_nil]

namespace Table

variable {p : Params} {c : Context} {clock : Instant}

/-- A statement that answers a request, or counts its rows. -/
inductive Answers (t : Table) (d : Dialect) (p : Params) (c : Context) (clock : Instant) : Plan → Prop where
  | answer {compiled : Compiled} {plan : Plan} (made : t.compile d p c clock = .ok compiled)
      (mem : plan ∈ compiled.plans) : Answers t d p c clock plan
  | count {plan : Plan} (made : t.compileCount d p c clock = .ok plan) : Answers t d p c clock plan

theorem all_condition_empty {r : Resolver} {day : Day} {f : Fragment} (h : r.condition p c day = .ok f) :
    Fragment.all [f, .empty] = f := by
  obtain ⟨scope, static, configured, filters, groups, search, -, -, -, -, -, -, rfl⟩ := Resolver.condition_eq_ok h
  exact Fragment.all_all_empty _

/-- A statement by the condition of its request, a continuation and an order. -/
theorem asked_of_condition (hr : r.Describes qualifier t d) {day : Day} {f continuation : Fragment} {plan : Plan}
    (h : (r.restrict c.roles).condition p c day = .ok f) (continues : plan.condition = .all [f, continuation])
    (tests : continuation.Tests r.dialect (r.Shows c.roles))
    (sorts : ∀ term ∈ plan.order, r.SortsByShown c.roles term) :
    ∃ a : Asked, a.In (r.restrict c.roles) p c day plan ∧ a.Tests t r p c.roles := by
  obtain ⟨scope, static, configured, filters, groups, search, hscope, hstatic, hconfigured, hfilters, hgroups,
    hsearch, rfl⟩ := Resolver.condition_eq_ok h
  refine ⟨{ filters, groups, search, continuation, order := plan.order }, ?_, ?_⟩
  · exact ⟨⟨scope, static, configured, hscope, hstatic, hconfigured, continues⟩, rfl⟩
  · exact {
      filters := Resolver.forall_requestFilters Fragment.composes_tests (fun _ _ => Resolver.tests_ofRequest hr) hfilters
      groups := Resolver.forall_requestGroups Fragment.composes_tests (fun _ _ => Resolver.tests_ofRequest hr) hgroups
      continuation := tests
      order := sorts
      search := Resolver.looksIn_search hr hsearch }

/-- A statement over all rows of a request, in no order. -/
theorem asked_of_all (hr : r.Describes qualifier t d) {day : Day} {f : Fragment} {plan : Plan}
    (h : (r.restrict c.roles).condition p c day = .ok f) (all : plan.condition = f) (unordered : plan.order = []) :
    ∃ a : Asked, a.In (r.restrict c.roles) p c day plan ∧ a.Tests t r p c.roles := by
  refine asked_of_condition hr h (all.trans (all_condition_empty h).symm) .nothing ?_
  rw [unordered]
  exact List.forall_mem_nil _

/-- The statement of a page, whichever way it is cut. -/
theorem asked_of_dataPlan (hr : r.Describes qualifier t d) {day : Day} {f : Fragment} {select : List SelectItem}
    {plan : Plan} {paging : Paging} (h : (r.restrict c.roles).condition p c day = .ok f)
    (made : (r.restrict c.roles).dataPlan p select f = .ok (plan, paging)) :
    ∃ a : Asked, a.In (r.restrict c.roles) p c day plan ∧ a.Tests t r p c.roles := by
  unfold Resolver.dataPlan at made
  cases cursor : p.cursor with
  | none =>
    rw [cursor] at made
    cases made
    exact asked_of_condition hr h (all_condition_empty h).symm .nothing
      fun term mem => Resolver.sortsByShown_lenientOrder mem
  | some token =>
    rw [cursor] at made
    obtain ⟨keyset, hkeyset, made⟩ := Checked.bind_eq_ok.mp made
    cases made
    obtain ⟨tests, sorts⟩ := Keyset.tests_continuation hkeyset
    exact asked_of_condition hr h rfl tests sorts

/-- What a request may ask for is decided by what its caller may see, except in its search. In every statement that
answers a request or counts its rows, whatever the request is, the filters, the filter trees, the cursor's
continuation and the order are tests of fields that the caller may see. The search looks in the field of a column
that the caller may not see exactly if the request has the table searched and the description lists the column for
it by another name than the column's own, that is after a qualifier. -/
theorem asked_fields {plan : Plan} (h : t.Answers d p c clock plan) :
    ∃ (r : Resolver) (a : Asked), Resolver.ofTable t d = .ok r
      ∧ a.In (r.restrict c.roles) p c (c.today clock) plan ∧ a.Tests t r p c.roles := by
  cases h with
  | answer made mem =>
    unfold compile at made
    obtain ⟨e, he, made⟩ := Checked.bind_eq_ok.mp made
    obtain ⟨s, hs, made⟩ := Checked.bind_eq_ok.mp made
    obtain ⟨r, hr, rfl⟩ := fields_of_effective he hs
    obtain ⟨condition, hcondition, made⟩ := Checked.bind_eq_ok.mp made
    obtain ⟨select, -, made⟩ := Checked.bind_eq_ok.mp made
    obtain ⟨⟨data, paging⟩, hdata, made⟩ := Checked.bind_eq_ok.mp made
    obtain ⟨aggregations, haggregations, made⟩ := Checked.bind_eq_ok.mp made
    cases made
    have described := Resolver.describes hr
    suffices ∃ a : Asked, a.In (r.restrict c.roles) p c (c.today clock) plan ∧ a.Tests t r p c.roles by
      obtain ⟨a, within, tests⟩ := this
      exact ⟨r, a, hr, within, tests⟩
    simp only [Compiled.plans, List.mem_append, List.mem_cons, List.not_mem_nil, or_false] at mem
    rcases mem with (rfl | rfl) | mem
    · exact asked_of_dataPlan described hcondition hdata
    · exact asked_of_all described hcondition rfl rfl
    · obtain ⟨select, -, rfl⟩ := Resolver.eq_of_mem_aggregationPlan haggregations mem
      exact asked_of_all described hcondition rfl rfl
  | count made =>
    unfold compileCount at made
    obtain ⟨e, he, made⟩ := Checked.bind_eq_ok.mp made
    obtain ⟨s, hs, made⟩ := Checked.bind_eq_ok.mp made
    obtain ⟨r, hr, rfl⟩ := fields_of_effective he hs
    obtain ⟨condition, hcondition, made⟩ := Checked.bind_eq_ok.mp made
    suffices ∃ a : Asked, a.In (r.restrict c.roles) p c (c.today clock) plan ∧ a.Tests t r p c.roles by
      obtain ⟨a, within, tests⟩ := this
      exact ⟨r, a, hr, within, tests⟩
    cases made
    exact asked_of_all (Resolver.describes hr) hcondition rfl rfl

/-- The pay of a person, which some roles may see. -/
def salary : Column := { name := "salary", type := .number, visibleTo := ["hr", "admin"] }

/-- A table of people, which may be searched by pay under the full name of the column. -/
def employees : Table where
  name := "employees"
  base := "employees"
  columns := [{ name := "id", type := .number }, { name := "name" }, salary]
  search := some { fields := ["name", "employees.salary"] }

/-- A caller without roles has the people counted whose pay has a digit in it. -/
theorem asked_fields_employees :
    ∃ plan, employees.validate none = .ok ()
      ∧ employees.compileCount .postgresql { search := some "5" } {} ⟨0⟩ = .ok plan
      ∧ ∃ (r : Resolver) (a : Asked) (f : Field), f.origin = .column salary ∧ f.isVisibleTo [] = false
        ∧ a.In (r.restrict []) { search := some "5" } {} (({} : Context).today ⟨0⟩) plan
        ∧ ∃ term fields, r.LooksIn term fields a.search ∧ f ∈ fields := by
  obtain ⟨plan, made⟩ : ∃ plan, employees.compileCount .postgresql { search := some "5" } {} ⟨0⟩ = .ok plan :=
    ⟨_, rfl⟩
  obtain ⟨r, a, hr, within, tests⟩ := asked_fields (.count made)
  obtain ⟨term, fields, looks, named⟩ := tests.search
  have found : ((Resolver.ofTable employees .postgresql).toOption.bind fun r => r.resolve "employees.salary")
      = some (Field.ofColumn .postgresql ["employees", "employees"] "employees" salary) := rfl
  rw [hr] at found
  have lists : employees.ListsForSearch { search := some "5" } "employees.salary" :=
    ⟨_, "5", "5", rfl, rfl, by decide, rfl, rfl, by decide⟩
  exact ⟨plan, rfl, made, r, a, _, rfl, rfl, within, term, fields, looks,
    (named _ rfl).mpr ⟨"employees.salary", lists, by decide, found⟩⟩

end Table

end TableQuery

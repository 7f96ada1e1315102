import Mathlib
import TableQuery.Proofs.Access.Visibility

/-!
# What a caller's roles change of a description

A column that is for some roles is concealed from a caller who has none of them, wherever it hangs in the forest of
joins: it is hidden, and neither sorted nor filtered by. Its name goes from the search fields, and from the filters on
offer. `Table.Derives` says so part by part; all other parts are as they were.

Which columns are concealed depends on the roles that they are for alone, and these are never changed. So it makes no
difference to a caller whether the description was derived for more roles before.

## What is proved

`Table.derives_iff`: the derived description is the one that `Table.Derives` asks for. `Table.visibleTo_visibleTo`:
deriving for fewer roles absorbs deriving for more.
`Table.visibleTo_exact`: both, and that a description without restrictions is everyone's as it is.
-/

namespace TableQuery

variable {roles more : List Bytes}

/-! ## Columns -/

namespace Column

/-- The column is not for a caller with these roles: it is for some roles, and none of them is the caller's. -/
def Excludes (roles : List Bytes) (c : Column) : Prop := c.visibleTo ≠ [] ∧ ∀ role ∈ c.visibleTo, role ∉ roles

instance (roles : List Bytes) (c : Column) : Decidable (c.Excludes roles) := inferInstanceAs (Decidable (_ ∧ _))

/-- What a caller with these roles gets of a column. -/
def Derives (roles : List Bytes) (c derived : Column) : Prop :=
  (c.Excludes roles → derived = { c with hidden := true, sortable := false, filterable := false })
    ∧ (¬c.Excludes roles → derived = c)

variable {c derived : Column}

theorem excludes_iff : c.Excludes roles ↔ c.isVisibleTo roles = false := by
  unfold Excludes isVisibleTo
  rw [Bool.or_eq_false_iff, List.isEmpty_eq_false_iff, List.any_eq_false]
  simp only [List.contains_iff_mem]

theorem derives_iff : c.Derives roles derived ↔ derived = c.restrict roles := by
  unfold Derives
  by_cases visible : c.isVisibleTo roles = true
  · have included : ¬c.Excludes roles := by rw [excludes_iff, visible]; decide
    rw [restrict_of_visible visible]
    exact ⟨fun h => h.2 included, fun h => ⟨fun excluded => absurd excluded included, fun _ => h⟩⟩
  · have excluded : c.Excludes roles := excludes_iff.mpr (Bool.eq_false_iff.mpr visible)
    rw [restrict_of_not_visible visible]
    exact ⟨fun h => h.1 excluded, fun h => ⟨fun _ => h, fun included => absurd excluded included⟩⟩

/-- A caller with more roles is not kept from more columns. -/
theorem Excludes.of_subset (fewer : roles ⊆ more) (h : c.Excludes more) : c.Excludes roles :=
  ⟨h.1, fun role mem has => h.2 role mem (fewer has)⟩

theorem visibleTo_restrict (roles : List Bytes) (c : Column) : (c.restrict roles).visibleTo = c.visibleTo := by
  unfold restrict
  split_ifs <;> rfl

theorem isVisibleTo_restrict (roles more : List Bytes) (c : Column) :
    (c.restrict more).isVisibleTo roles = c.isVisibleTo roles := by
  unfold isVisibleTo
  rw [visibleTo_restrict]

/-- What is concealed from more roles is concealed from fewer. -/
theorem restrict_restrict (fewer : roles ⊆ more) (c : Column) :
    (c.restrict more).restrict roles = c.restrict roles := by
  by_cases visible : c.isVisibleTo more = true
  · rw [restrict_of_visible visible]
  · have excluded : c.Excludes more := excludes_iff.mpr (Bool.eq_false_iff.mpr visible)
    have hidden : ¬c.isVisibleTo roles = true := by
      rw [excludes_iff.mp (excluded.of_subset fewer)]
      decide
    have hidden' : ¬(c.restrict more).isVisibleTo roles = true := by rwa [isVisibleTo_restrict]
    rw [restrict_of_not_visible hidden', restrict_of_not_visible visible, restrict_of_not_visible hidden]
    rfl

theorem map_restrict_map_restrict (fewer : roles ⊆ more) (cs : List Column) :
    (cs.map (restrict more)).map (restrict roles) = cs.map (restrict roles) := by
  rw [List.map_map]
  exact List.map_congr_left fun c _ => restrict_restrict fewer c

end Column

/-! ## Joins -/

namespace Join

mutual

/-- What a caller with these roles gets of a join: the same join, with the columns that the caller gets, here and
below. -/
inductive Derives (roles : List Bytes) : Join → Join → Prop
  | mk {table tableAlias : Bytes} {type : JoinType} {condition : JoinCondition} {columns derived : List Column}
      {joins below : List Join} (own : List.Forall₂ (Column.Derives roles) columns derived)
      (rest : DerivesAll roles joins below) :
      Derives roles (.mk table tableAlias type condition columns joins)
        (.mk table tableAlias type condition derived below)

/-- What a caller with these roles gets of the joins of a list. -/
inductive DerivesAll (roles : List Bytes) : List Join → List Join → Prop
  | nil : DerivesAll roles [] []
  | cons {j j' : Join} {js js' : List Join} (head : Derives roles j j') (tail : DerivesAll roles js js') :
      DerivesAll roles (j :: js) (j' :: js')

end

theorem forall₂_derives_iff {cs derived : List Column} :
    List.Forall₂ (Column.Derives roles) cs derived ↔ derived = cs.map (Column.restrict roles) := by
  have each : Column.Derives roles = fun c c' => c.restrict roles = c' :=
    funext fun c => funext fun c' => propext (Column.derives_iff.trans eq_comm)
  rw [each, ← List.forall₂_map_left_iff, List.forall₂_eq_eq_eq, eq_comm]

mutual

theorem derives_iff {j j' : Join} : j.Derives roles j' ↔ j' = j.restrict roles := by
  cases j with
  | mk table tableAlias type condition columns joins =>
    rw [restrict]
    constructor
    · rintro ⟨own, rest⟩
      rw [forall₂_derives_iff.mp own, derivesAll_iff.mp rest]
    · rintro rfl
      exact .mk (forall₂_derives_iff.mpr rfl) (derivesAll_iff.mpr rfl)

theorem derivesAll_iff {js js' : List Join} : DerivesAll roles js js' ↔ js' = restrictList roles js := by
  cases js with
  | nil =>
    constructor
    · rintro ⟨⟩
      rfl
    · rintro rfl
      exact .nil
  | cons j js =>
    rw [restrictList]
    constructor
    · rintro (_ | ⟨head, tail⟩)
      rw [derives_iff.mp head, derivesAll_iff.mp tail]
    · rintro rfl
      exact .cons (derives_iff.mpr rfl) (derivesAll_iff.mpr rfl)

end

mutual

theorem restrict_restrict (fewer : roles ⊆ more) (j : Join) :
    (j.restrict more).restrict roles = j.restrict roles := by
  cases j with
  | mk table tableAlias type condition columns joins =>
    rw [restrict, restrict, restrict, Column.map_restrict_map_restrict fewer, restrictList_restrictList fewer]

theorem restrictList_restrictList (fewer : roles ⊆ more) (js : List Join) :
    restrictList roles (restrictList more js) = restrictList roles js := by
  cases js with
  | nil => rfl
  | cons j js =>
    rw [restrictList, restrictList, restrictList, restrict_restrict fewer, restrictList_restrictList fewer]

end

end Join

/-! ## Descriptions -/

namespace Table

variable {t derived : Table}

/-- A name of columns of which one is not for a caller with these roles. -/
def Conceals (t : Table) (roles : List Bytes) (name : Bytes) : Prop :=
  ∃ c ∈ t.allColumns, c.Excludes roles ∧ c.name = name

instance (t : Table) (roles : List Bytes) (name : Bytes) : Decidable (t.Conceals roles name) :=
  inferInstanceAs (Decidable (∃ c ∈ t.allColumns, _))

/-- What a caller with these roles gets of a description. -/
structure Derives (roles : List Bytes) (t derived : Table) : Prop where
  columns : List.Forall₂ (Column.Derives roles) t.columns derived.columns
  joins : Join.DerivesAll roles t.joins derived.joins
  /-- A filter stays unless it is on offer for a concealed name. -/
  filters : derived.filters = t.filters.filter fun f => ¬(f.kind = .dynamic ∧ t.Conceals roles f.condition.field)
  /-- A search looks into the fields that are left. -/
  search : derived.search = t.search.map fun s =>
    { s with fields := s.fields.filter fun name => ¬t.Conceals roles name }
  others : derived = { t with
    columns := derived.columns, joins := derived.joins, filters := derived.filters, search := derived.search }

theorem mem_invisibleNames_iff {name : Bytes} :
    name ∈ Column.invisibleNames roles t.allColumns ↔ t.Conceals roles name := by
  unfold Column.invisibleNames Conceals
  simp only [List.mem_map, List.mem_filter, Bool.not_eq_true', ← Column.excludes_iff, and_assoc]

theorem contains_invisibleNames {name : Bytes} :
    (Column.invisibleNames roles t.allColumns).contains name = decide (t.Conceals roles name) := by
  rw [Bool.eq_iff_iff, List.contains_iff_mem, mem_invisibleNames_iff, decide_eq_true_eq]

/-- The derived description is what a caller with these roles gets. -/
theorem derives_iff : t.Derives roles derived ↔ derived = t.visibleTo roles := by
  have filters : (t.filters.filter fun f => ¬(f.kind = .dynamic ∧ t.Conceals roles f.condition.field))
      = (t.visibleTo roles).filters := by
    refine List.filter_congr fun f _ => ?_
    rw [contains_invisibleNames, decide_not, Bool.decide_and]
    rfl
  have search : (t.search.map fun s => { s with fields := s.fields.filter fun name => ¬t.Conceals roles name })
      = (t.visibleTo roles).search := by
    refine congrArg (t.search.map ·) (funext fun s => ?_)
    unfold searchWithout
    congr 1
    refine List.filter_congr fun name _ => ?_
    rw [contains_invisibleNames, decide_not]
  constructor
  · intro h
    rw [h.others, Join.forall₂_derives_iff.mp h.columns, Join.derivesAll_iff.mp h.joins, h.filters, h.search, filters,
      search]
    rfl
  · rintro rfl
    exact {
      columns := Join.forall₂_derives_iff.mpr rfl
      joins := Join.derivesAll_iff.mpr rfl
      filters := filters.symm
      search := search.symm
      others := rfl }

/-- Deriving a description changes no name and no roles that a column is for. -/
theorem conceals_visibleTo {t : Table} {name : Bytes} :
    (t.visibleTo more).Conceals roles name ↔ t.Conceals roles name := by
  unfold Conceals
  rw [allColumns_visibleTo]
  have same (c : Column) : (c.restrict more).Excludes roles ↔ c.Excludes roles := by
    unfold Column.Excludes
    rw [Column.visibleTo_restrict]
  constructor
  · rintro ⟨_, mem, excluded, named⟩
    obtain ⟨c, own, rfl⟩ := List.mem_map.mp mem
    exact ⟨c, own, (same c).mp excluded, (Column.name_restrict more c).symm.trans named⟩
  · rintro ⟨c, mem, excluded, named⟩
    exact ⟨_, List.mem_map.mpr ⟨c, mem, rfl⟩, (same c).mpr excluded, (Column.name_restrict more c).trans named⟩

theorem Conceals.of_subset (fewer : roles ⊆ more) {name : Bytes} (h : t.Conceals more name) :
    t.Conceals roles name := by
  obtain ⟨c, mem, excluded, named⟩ := h
  exact ⟨c, mem, excluded.of_subset fewer, named⟩

/-- A caller gets the same of the description as of one that was derived for more roles. -/
theorem visibleTo_visibleTo (fewer : roles ⊆ more) (t : Table) :
    (t.visibleTo more).visibleTo roles = t.visibleTo roles := by
  have first := derives_iff.mpr (rfl : t.visibleTo more = _)
  have second := derives_iff.mpr (rfl : (t.visibleTo more).visibleTo roles = _)
  have absorbed (name : Bytes) : ¬(t.visibleTo more).Conceals roles name ∧ ¬t.Conceals more name
      ↔ ¬t.Conceals roles name := by
    rw [conceals_visibleTo]
    exact and_iff_left_of_imp fun shown concealed => shown (concealed.of_subset fewer)
  rw [← derives_iff]
  exact {
    columns := Join.forall₂_derives_iff.mpr (Column.map_restrict_map_restrict fewer t.columns)
    joins := Join.derivesAll_iff.mpr (Join.restrictList_restrictList fewer t.joins)
    filters := by
      rw [second.filters, first.filters, List.filter_filter]
      refine List.filter_congr fun f _ => ?_
      rw [Bool.eq_iff_iff, Bool.and_eq_true, decide_eq_true_eq, decide_eq_true_eq, decide_eq_true_eq]
      have name := absorbed f.condition.field
      tauto
    search := by
      rw [second.search, first.search, Option.map_map]
      refine congrArg (t.search.map ·) (funext fun s => ?_)
      dsimp only [Function.comp_apply]
      rw [List.filter_filter]
      congr 1
      refine List.filter_congr fun name _ => ?_
      rw [Bool.eq_iff_iff, Bool.and_eq_true, decide_eq_true_eq, decide_eq_true_eq, decide_eq_true_eq]
      exact absorbed name
    others := rfl }

/-! ## Descriptions without restrictions -/

theorem hasRoleRestrictions_iff : t.hasRoleRestrictions = true ↔ ∃ c ∈ t.allColumns, c.visibleTo ≠ [] := by
  unfold hasRoleRestrictions Column.isRestricted
  simp only [List.any_eq_true, Bool.not_eq_true', List.isEmpty_eq_false_iff]

/-- A caller gets a description whose columns, the table's own and those of all joins, are as they were, but for those
that are for some roles and for none of the caller's: these are hidden, and neither sorted nor filtered by. Of the rest
of the description, the names of these columns go from the search fields and the filters on offer, and nothing else
changes. Deriving twice changes nothing more, and with more roles no more columns are concealed. A description without
restrictions is everyone's as it is, so that looking for them first makes no difference. -/
theorem visibleTo_exact (t : Table) :
    (∀ roles derived, t.Derives roles derived ↔ derived = t.visibleTo roles)
    ∧ (∀ roles, (t.visibleTo roles).visibleTo roles = t.visibleTo roles)
    ∧ (∀ roles more, roles ⊆ more →
      (t.allColumns.filter fun c => c.Excludes more).Sublist (t.allColumns.filter fun c => c.Excludes roles)
        ∧ (t.visibleTo more).visibleTo roles = t.visibleTo roles)
    ∧ (t.hasRoleRestrictions = true ↔ ∃ c ∈ t.allColumns, c.visibleTo ≠ [])
    ∧ (t.hasRoleRestrictions = false → ∀ roles, t.visibleTo roles = t)
    ∧ ∀ c, t.effective c = (t.checkAccess c).map fun _ => t.visibleTo c.roles := by
  refine ⟨fun _ _ => derives_iff, fun roles => visibleTo_visibleTo (List.Subset.refl roles) t,
    fun roles more fewer => ⟨?_, visibleTo_visibleTo fewer t⟩, hasRoleRestrictions_iff, visibleTo_of_unrestricted,
    effective_eq t⟩
  refine List.monotone_filter_right t.allColumns fun c excluded => ?_
  rw [decide_eq_true_eq] at excluded ⊢
  exact excluded.of_subset fewer

/-- Salaries that hang two joins deep. -/
def payroll : Table where
  name := "payroll"
  base := "payroll"
  columns := [{ name := "id" }, { name := "note", visibleTo := ["hr", "audit"] }]
  joins :=
    [.mk "people" [] .left (.columns "person" "id") [{ name := "name" }]
      [.mk "salaries" [] .left (.columns "id" "person") [{ name := "salary", visibleTo := ["hr"] }] []]]
  filters :=
    [{ kind := .dynamic, condition := { field := "salary" } }, { kind := .dynamic, condition := { field := "name" } }]
  search := some { fields := ["name", "note"] }

/-- The same, without the columns that are for some roles. -/
def register : Table where
  name := "register"
  base := "payroll"
  columns := [{ name := "id" }]
  joins := [.mk "people" [] .left (.columns "person" "id") [{ name := "name" }] []]
  search := some { fields := ["name"] }

/-- An auditor sees the notes and no salaries, and a caller without roles neither, however the description was derived
before. -/
theorem visibleTo_exact_payroll :
    ([] : List Bytes) ⊆ ["audit"]
      ∧ (payroll.allColumns.filter fun c => c.Excludes ["audit"]).map Column.name = ["salary"]
      ∧ (payroll.visibleTo ["audit"]).filters.map (fun f => f.condition.field) = ["name"]
      ∧ (payroll.visibleTo ["audit"]).visibleTo [] = payroll.visibleTo []
      ∧ register.hasRoleRestrictions = false ∧ register.visibleTo ["audit"] = register := by
  obtain ⟨-, -, fewer, -⟩ := visibleTo_exact payroll
  obtain ⟨-, -, -, -, unrestricted, -⟩ := visibleTo_exact register
  have none : ([] : List Bytes) ⊆ ["audit"] := List.nil_subset _
  exact ⟨none, by decide, by decide, (fewer _ _ none).2, rfl, unrestricted rfl _⟩

end Table

end TableQuery

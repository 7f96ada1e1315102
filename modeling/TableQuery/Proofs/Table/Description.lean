import TableQuery.Proofs.Table.Tree
import TableQuery.Table.Basic

/-!
# Descriptions read back

A description of a table is written with all its parts that have not their usual value. A section that is absent and
one that is there are not read alike: caching, soft deletion and tenancy are off where they are not mentioned, and on
where they are and nothing is said of it. So these are always written, with their switch.

## What is proved

`Table.roundTrip_of_ofJson`: a description that was read, from whatever form, is read back as it was written.
-/

namespace TableQuery

open Json Outcome

namespace Table

/-- What is written of a description, by the names of the members. -/
def fields (t : Table) : List (Bytes × Option Json) :=
  [("name", some (.str t.name)), ("base", some (.str t.base)), ("columns", some (.arr (t.columns.map Column.toJson))),
    ("joins", listOf Join.toJson t.joins), ("filters", listOf ConfiguredFilter.toJson t.filters),
    ("filter_groups", listOf FilterTree.toJson t.filterGroups),
    ("backend_conditions", listOf Condition.toJson t.backendConditions), ("search", t.search.map Search.toJson),
    ("default_sort", listOf SortKey.toJson t.defaultSort), ("pagination", some t.pagination.toJson),
    ("aggregations", listOf Aggregation.toJson t.aggregations), ("subqueries", listOf Subquery.toJson t.subqueries),
    ("group_by", t.groupBy.map GroupBy.toJson), ("recursive", t.walk.map TreeWalk.toJson),
    ("soft_delete", some t.softDelete.toJson), ("tenant", some t.tenant.toJson), ("cache", some t.cache.toJson),
    ("access", if !t.access.isEmpty then some t.access.toJson else none),
    ("date_range_column", if !t.dateRangeColumn.isEmpty then some (.str t.dateRangeColumn) else none)]

theorem tells (t : Table) : t.toJson.Tells t.fields := by
  refine tells_recordOf ?_ ?_
  · unfold present fields listMember
    rw [List.flatMap_def]
    simp only [memberIf_eq, member?_eq, List.map_cons, List.map_nil]
    rfl
  · simp only [fields, List.map_cons, List.map_nil]
    decide

/-! ## Sections -/

section

variable {j : Json} {fields : List (Bytes × Option Json)} (told : j.Tells fields) (key : Bytes)
include told

/-- A section that is always written is read back if it is read back from what is written of it. -/
theorem section?_of_some {α : Type} {read : Json → Outcome α} {absent a : α} (part : Json)
    (given : Members.find? key fields = some (some part)) (back : read part = .ok a) :
    (section? j key read absent) = .ok a := by
  unfold section?
  rw [told.get? key _ given]
  exact back

/-- A section that may be missing is read back. -/
theorem section?_of_map {α : Type} {read : Json → Outcome α} (write : α → Json) (value : Option α)
    (given : Members.find? key fields = some (value.map write)) (back : ∀ a, read (write a) = .ok a) :
    (section? j key (fun part => some <$> read part) none) = .ok value := by
  unfold section?
  rw [told.get? key _ given]
  cases value with
  | none => rfl
  | some a => exact congrArg (some <$> ·) (back a)

end

/-- A rule that admits everyone is the one that is taken where there is none. -/
theorem section?_access (t : Table) : section? t.toJson "access" (fun a => AccessRule.ofJson a) {} = .ok t.access := by
  unfold section?
  rw [t.tells.get? "access" _ rfl]
  obtain ⟨roles, permissions⟩ := t.access
  cases roles with
  | nil =>
    cases permissions with
    | nil => rfl
    | cons permission rest => exact reading_of_ok (AccessRule.ofJson_toJson ⟨[], permission :: rest⟩)
  | cons role rest => exact reading_of_ok (AccessRule.ofJson_toJson ⟨role :: rest, permissions⟩)

/-! ## Descriptions -/

/-- A description is read back as it was written if its columns and joins are. -/
theorem readSections_toJson (t : Table) (columns : ∀ c ∈ t.columns, Column.ofJson c.toJson = .ok c)
    (joins : ∀ join ∈ t.joins, Join.ofJson join.toJson = .ok join) : readSections t.name t.toJson = .ok t := by
  have told := t.tells
  unfold readSections
  refine bind_reading (told.textOr "base" t.base rfl _) ?_
  refine bind_reading (told.elemsOr "columns" (t.columns.map Column.toJson) rfl) ?_
  refine Checked.bind_of_ok (Checked.mapM_of_forall columns) ?_
  refine bind_reading (told.elemsOr_nil "joins" Join.toJson t.joins rfl) ?_
  refine Checked.bind_of_ok (Checked.mapM_of_forall joins) ?_
  refine bind_reading (told.elemsOr_nil "filters" ConfiguredFilter.toJson t.filters rfl) ?_
  refine Checked.bind_of_ok (Checked.mapM_of_forall fun f _ => f.ofJson_toJson) ?_
  refine bind_reading (told.elemsOr_nil "filter_groups" FilterTree.toJson t.filterGroups rfl) ?_
  refine Checked.bind_of_ok (Checked.mapM_of_forall fun f _ => f.ofJson_toJson .description) ?_
  refine bind_reading (told.elemsOr_nil "backend_conditions" Condition.toJson t.backendConditions rfl) ?_
  refine Checked.bind_of_ok (Checked.mapM_of_forall fun c _ => c.ofJson_toJson .description) ?_
  refine Checked.bind_of_ok (section?_of_map told "search" Search.toJson t.search rfl fun s =>
    reading_of_ok s.ofJson_toJson) ?_
  refine bind_reading (told.elemsOr_nil "default_sort" SortKey.toJson t.defaultSort rfl) ?_
  refine Checked.bind_of_ok (Checked.mapM_of_forall fun k _ => k.ofJson_toJson) ?_
  refine Checked.bind_of_ok (section?_of_some told "pagination" t.pagination.toJson rfl
    (reading_of_ok t.pagination.ofJson_toJson)) ?_
  refine bind_reading (told.elemsOr_nil "aggregations" Aggregation.toJson t.aggregations rfl) ?_
  refine Checked.bind_of_ok (Checked.mapM_of_forall fun a _ => a.ofJson_toJson) ?_
  refine bind_reading (told.elemsOr_nil "subqueries" Subquery.toJson t.subqueries rfl) ?_
  refine Checked.bind_of_ok (Checked.mapM_of_forall fun s _ => s.ofJson_toJson) ?_
  refine Checked.bind_of_ok (section?_of_map told "group_by" GroupBy.toJson t.groupBy rfl GroupBy.ofJson_toJson) ?_
  refine Checked.bind_of_ok (section?_of_map told "recursive" TreeWalk.toJson t.walk rfl fun w =>
    w.ofJson_toJson t.name) ?_
  refine Checked.bind_of_ok (section?_of_some told "soft_delete" t.softDelete.toJson rfl
    (reading_of_ok (t.softDelete.ofJson_toJson _))) ?_
  refine Checked.bind_of_ok (section?_of_some told "tenant" t.tenant.toJson rfl
    (reading_of_ok (t.tenant.ofJson_toJson _))) ?_
  refine Checked.bind_of_ok (section?_of_some told "cache" t.cache.toJson rfl
    (reading_of_ok t.cache.ofJson_toJson)) ?_
  refine Checked.bind_of_ok t.section?_access ?_
  exact bind_reading (told.textOr_nil "date_range_column" t.dateRangeColumn rfl) rfl

/-- A description keeps the name under which its sections are read, and its columns and joins were read themselves. -/
theorem parts_of_readSections (name : Bytes) (j : Json) :
    Checked.Ensures (readSections name j) fun t => t.name = name
      ∧ (∀ c ∈ t.columns, ∃ part, Column.ofJson part = .ok c) ∧ ∀ join ∈ t.joins, ∃ part, Join.ofJson part = .ok join := by
  unfold readSections
  iterate 2 refine Checked.ensures_bind fun _ _ => ?_
  refine Checked.ensures_bind fun columns readColumns => ?_
  refine Checked.ensures_bind fun _ _ => ?_
  refine Checked.ensures_bind fun joins readJoins => ?_
  repeat refine Checked.ensures_bind fun _ _ => ?_
  refine Checked.ensures_pure ⟨rfl, fun c mem => ?_, fun join mem => ?_⟩
  · obtain ⟨part, -, read⟩ := Checked.exists_of_mem_mapM readColumns mem
    exact ⟨part, read⟩
  · obtain ⟨part, -, read⟩ := Checked.exists_of_mem_mapM readJoins mem
    exact ⟨part, read⟩

/-- A description that was read is read back as it was written, with all its parts, so that it is written as before. -/
theorem roundTrip_of_ofJson {j : Json} {t : Table} (read : ofJson j = .ok t) :
    ofJson t.toJson = .ok t ∧ (ofJson t.toJson).map toJson = .ok t.toJson := by
  have back : ofJson t.toJson = .ok t := by
    unfold ofJson at read
    cases named : j.textAt "name" with
    | error mismatch =>
      rw [named] at read
      cases read
    | ok name =>
      rw [named] at read
      obtain ⟨-, columns, joins⟩ := parts_of_readSections name j t (Checked.wordMismatch_eq_ok.mp read)
      unfold ofJson
      rw [t.tells.textAt "name" t.name rfl]
      refine Checked.wordMismatch_eq_ok.mpr (t.readSections_toJson (fun c mem => ?_) fun join mem => ?_)
      · obtain ⟨part, read⟩ := columns c mem
        exact Column.ofJson_toJson_of_ofJson read
      · obtain ⟨part, read⟩ := joins join mem
        exact Join.ofJson_toJson_of_ofJson read
  exact ⟨back, congrArg (Except.map toJson) back⟩

/-- A description with shorthands, joins in joins, and trees. -/
def terse : Json :=
  .record
    [("name", .str "orders"),
      ("columns", .arr
        [.record [("name", .str "id"), ("type", .str "integer")],
          .record [("name", .str "total"), ("expression", .str "price * amount"), ("computed", .bool false)]]),
      ("joins", .arr
        [.record
          [("table", .str "customers"), ("on", .str "customer_id = id"),
            ("joins", .arr
              [.record
                [("table", .str "regions"), ("type", .str "inner"),
                  ("on", .str "customers.region = regions.id AND open")]])]]),
      ("filter_groups", .arr
        [.record
          [("or", .arr
            [.record [("field", .str "id"), ("operator", .str "gt"), ("value", .int 5)],
              .record [("and", .arr [.record [("field", .str "total")]])]])]]),
      ("search", .ofTexts ["name"]),
      ("default_sort", .arr [.str "-id", .record [("field", .str "-total")]]),
      ("subqueries", .arr
        [.record
          [("alias", .str "open"), ("table", .str "items"),
            ("where", .record
              [("not", .record
                [("or", .arr
                  [.record
                    [("left", .record [("column", .str "items.order_id")]), ("op", .str "gte"),
                      ("right", .record [("value", .null)])]])])])]]),
      ("soft_delete", .bool true), ("tenant", .record []), ("cache", .record [("ttl", .int 5)])]

/-- What `terse` describes. -/
def spelledOut : Table where
  name := "orders"
  base := "orders"
  columns :=
    [{ name := "id", type := .number }, { name := "total", expression := some ⟨"price * amount"⟩, computed := true }]
  joins :=
    [.mk "customers" [] .left (.columns "customer_id" "id") []
      [.mk "regions" [] .inner (.sql ⟨"customers.region = regions.id AND open"⟩) [] []]]
  filterGroups := [.group .or [.leaf ⟨"id", .gt, .int 5⟩, .group .and [.leaf ⟨"total", .eq, .null⟩]]]
  search := some { fields := ["name"] }
  defaultSort := [⟨"id", .desc⟩, ⟨"-total", .asc⟩]
  subqueries :=
    [{ name := "open", table := "items",
       predicate := some (.not (.any [.compare ⟨.column "items.order_id", .gte, .literal .null⟩])) }]
  softDelete := { enabled := true, field := "deletedAt" }
  tenant := { enabled := true, field := "tenantId" }
  cache := { enabled := true, ttl := 5 }

theorem roundTrip_terse : ofJson terse = .ok spelledOut ∧ ofJson spelledOut.toJson = .ok spelledOut
    ∧ (ofJson spelledOut.toJson).map toJson = .ok spelledOut.toJson := by
  have read : ofJson terse = .ok spelledOut := by cbv
  exact ⟨read, roundTrip_of_ofJson read⟩

end Table

end TableQuery

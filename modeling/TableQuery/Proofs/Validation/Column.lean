import Mathlib
import TableQuery.Access.Visibility
import TableQuery.Validation.Check

/-!
# What validation says of the columns

A description without problems has no problem in any part of it. So each of its columns has been checked, those of
joins included, at whatever depth they hang.

## What is proved

`Table.checked_of_validate`: a validated description has no problem in any column. So the database functions of a
column, which are written into SQL without quotes, are safe identifiers (`Table.isSafeIdentifier_of_validate`).
-/

namespace TableQuery

namespace Validation

variable {catalog : Option Catalog}

theorem isSafeIdentifier_of_identifier {path name : Bytes} (h : identifier path name = []) :
    Name.isSafeIdentifier name = true := by
  by_contra invalid
  rw [Bool.not_eq_true] at invalid
  rw [identifier, invalid] at h
  cases h

/-- The database functions of a column without problems are safe to write without quotes. -/
theorem isSafeIdentifier_of_mem_dbTransforms {table path : Bytes} {c : Column} (h : column catalog table path c = [])
    {name : Bytes} (mem : name ∈ c.dbTransforms) : Name.isSafeIdentifier name = true := by
  rw [column] at h
  split_ifs at h
  all_goals
    have transforms := (List.append_eq_nil_iff.mp h).1
    rw [List.flatMap_eq_nil_iff] at transforms
    exact isSafeIdentifier_of_identifier (transforms name mem)

/-- A column was checked, at some place of a description, and has no problem. -/
def Checks (catalog : Option Catalog) (c : Column) : Prop := ∃ table path, column catalog table path c = []

theorem checks_of_columns {table path : Bytes} {cs : List Column} (h : columns catalog table path cs = []) :
    ∀ c ∈ cs, Checks catalog c := by
  intro c mem
  obtain ⟨i, bound, rfl⟩ := List.getElem_of_mem mem
  refine ⟨table, Problem.index path i, ?_⟩
  rw [columns, List.flatten_eq_nil_iff] at h
  exact h _ (List.mem_mapIdx.mpr ⟨i, bound, rfl⟩)

mutual

theorem checks_of_join {path : Bytes} {j : Join} (h : join catalog path j = []) :
    ∀ c ∈ j.allColumns, Checks catalog c := by
  cases j with
  | mk table tableAlias type condition cs joins =>
    rw [join] at h
    obtain ⟨h, below⟩ := List.append_eq_nil_iff.mp h
    obtain ⟨-, own⟩ := List.append_eq_nil_iff.mp h
    rw [Join.allColumns, List.forall_mem_append]
    exact ⟨checks_of_columns own, checks_of_joinsFrom below⟩

theorem checks_of_joinsFrom {path : Bytes} {i : Nat} {js : List Join} (h : joinsFrom catalog path i js = []) :
    ∀ c ∈ Join.allColumnsOf js, Checks catalog c := by
  cases js with
  | nil => exact List.forall_mem_nil _
  | cons j js =>
    rw [joinsFrom] at h
    obtain ⟨first, rest⟩ := List.append_eq_nil_iff.mp h
    rw [Join.allColumnsOf, List.forall_mem_append]
    exact ⟨checks_of_join first, checks_of_joinsFrom rest⟩

end

end Validation

namespace Table

variable {t : Table} {catalog : Option Catalog}

theorem problems_of_validate (h : t.validate catalog = .ok ()) : Validation.problems t catalog = [] := by
  unfold validate at h
  split at h
  · assumption
  · cases h

/-- A validated description has no problem in any of its columns. -/
theorem checked_of_validate (h : t.validate catalog = .ok ()) : ∀ c ∈ t.allColumns, Validation.Checks catalog c := by
  have none := problems_of_validate h
  unfold Validation.problems at none
  obtain ⟨none, -⟩ := List.append_eq_nil_iff.mp none
  obtain ⟨none, -⟩ := List.append_eq_nil_iff.mp none
  obtain ⟨none, joins⟩ := List.append_eq_nil_iff.mp none
  obtain ⟨-, own⟩ := List.append_eq_nil_iff.mp none
  unfold allColumns
  rw [List.forall_mem_append]
  exact ⟨Validation.checks_of_columns own, Validation.checks_of_joinsFrom joins⟩

theorem isSafeIdentifier_of_validate (h : t.validate catalog = .ok ()) :
    ∀ c ∈ t.allColumns, ∀ name ∈ c.dbTransforms, Name.isSafeIdentifier name = true := by
  intro c mem name among
  obtain ⟨table, path, checked⟩ := checked_of_validate h c mem
  exact Validation.isSafeIdentifier_of_mem_dbTransforms checked among

end Table

end TableQuery

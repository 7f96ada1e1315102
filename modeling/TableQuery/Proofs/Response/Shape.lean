import TableQuery.Proofs.Checked
import TableQuery.Proofs.Json.Members
import TableQuery.Response.Basic

/-!
# A shaped row

A row is shaped field by field. The column that an output field's name finds says whether the field is shown and which
transforms its value goes through; a field without a column is shown as it is.

## What is proved

`Table.get?_of_shapeRow`: what a shaped row has under the name of a visible column, however often the name is among
the output fields. Under other names than these it has nothing.
-/

namespace TableQuery

/-- A shaped row has a column just where the row before it does, with the value that the column's transforms make. -/
def Column.ShownBy (k : Column) (transforms : TransformRegistry) (row shown : Json) : Prop :=
  Option.Rel (fun value v => Table.shapeValue transforms row k.valueTransforms value = .ok v) (row.get? k.name)
    (shown.get? k.name)

namespace Table

variable {t : Table} {transforms : TransformRegistry} {fields : List Bytes} {row shown : Json} {k : Column}
  {name : Bytes} {members : List (Bytes × Json)}

theorem name_of_shapeMember (made : t.shapeMember transforms row name = .ok members) {member : Bytes × Json}
    (mem : member ∈ members) : member.1 = name := by
  unfold shapeMember at made
  dsimp only at made
  split at made
  · cases made
    rw [List.mem_singleton.mp mem]
  · split_ifs at made
    · cases made
      cases mem
    · obtain ⟨value, -, made⟩ := Checked.bind_eq_ok.mp made
      cases made
      rw [List.mem_singleton.mp mem]

/-- The member of a visible column is what its transforms make of the value. -/
theorem shapeMember_eq_ok (column : t.outputColumn? name = some k) (visible : k.hidden = false) :
    t.shapeMember transforms row name = .ok members
      ↔ ∃ value, shapeValue transforms row k.valueTransforms ((row.get? name).getD .null) = .ok value
        ∧ members = [(name, value)] := by
  unfold shapeMember
  rw [column]
  dsimp only
  rw [visible, if_neg Bool.false_ne_true, Checked.bind_eq_ok]
  refine exists_congr fun value => and_congr_right fun _ => ?_
  exact ⟨fun same => (Except.ok.inj same).symm, fun same => congrArg Except.ok same.symm⟩

/-- A shaped row has no members but the output fields. -/
theorem get?_of_shapeRow_of_not_mem (shaped : t.shapeRow transforms fields row = .ok shown) (absent : name ∉ fields) :
    shown.get? name = none := by
  unfold shapeRow at shaped
  obtain ⟨groups, made, shaped⟩ := Checked.bind_eq_ok.mp shaped
  cases shaped
  refine Json.get?_record_of_not_mem fun found => absent ?_
  obtain ⟨member, held, rfl⟩ := List.mem_map.mp found
  obtain ⟨group, hgroup, mem⟩ := List.mem_flatten.mp held
  obtain ⟨field, hfield, made⟩ := Checked.exists_of_mem_mapM made hgroup
  rwa [name_of_shapeMember made mem]

/-- A visible column is shown by its transforms, if it is among the output fields, however often. -/
theorem get?_of_shapeRow (shaped : t.shapeRow transforms fields row = .ok shown)
    (column : t.outputColumn? name = some k) (visible : k.hidden = false) (asked : name ∈ fields) :
    ∃ value, shapeValue transforms row k.valueTransforms ((row.get? name).getD .null) = .ok value
      ∧ shown.get? name = some value := by
  unfold shapeRow at shaped
  obtain ⟨groups, made, shaped⟩ := Checked.bind_eq_ok.mp shaped
  cases shaped
  obtain ⟨group, hgroup, here⟩ := Checked.exists_mem_mapM made asked
  obtain ⟨value, transformed, rfl⟩ := (shapeMember_eq_ok column visible).mp here
  refine ⟨value, transformed, Json.get?_record_of_only ?_ fun v held => ?_⟩
  · exact List.mem_flatten.mpr ⟨_, hgroup, List.mem_singleton.mpr rfl⟩
  · obtain ⟨other, hother, mem⟩ := List.mem_flatten.mp held
    obtain ⟨field, -, again⟩ := Checked.exists_of_mem_mapM made hother
    cases name_of_shapeMember again mem
    rw [here] at again
    cases again
    cases List.mem_singleton.mp mem
    rfl

end Table

end TableQuery

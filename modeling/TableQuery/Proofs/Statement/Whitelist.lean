import TableQuery.Proofs.Field.Shadow
import TableQuery.Proofs.Request.Refusal
import TableQuery.Statement.Condition
import TableQuery.Validation.Check

/-!
# The whitelist of filters

A request may not filter by a field that is not filterable, unless the description offers a filter on it. The field of
the request is looked up, and so may be named with a qualifier. The filters of the description are not looked up: each
is compared, as it is spelled, with the field's own name. So an offer with a qualifier opens nothing, and an offer on a
column of the base table opens the column of a join that it shadows.

## What is proved

`Condition.refused_iff`: when a filter on a field that is not filterable is refused, and when this is not what the
fields that the offers lead to would have it be.
-/

namespace TableQuery

/-! ## Faults about a value -/

/-- The class of faults that are about the value of a filter, or about its operator. -/
def Fault.IsOfValue : Fault → Prop
  | .validation .. | .dialect .. => True
  | _ => False

/-- A value, or a fault about it. -/
abbrev Checked.GivesOrOfValue {α : Type} (x : Checked α) : Prop := x.GivesOr Fault.IsOfValue

open Checked

namespace Operator

theorem givesOr_requireText (op : Operator) (field : Bytes) (value : Json) :
    (op.requireText field value).GivesOrOfValue := by
  cases value with
  | str s => exact givesOr_ok s
  | null | bool _ | int _ | float _ | arr _ | obj _ => exact givesOr_error trivial

theorem givesOr_requireArray (op : Operator) (field : Bytes) (value : Json) :
    (op.requireArray field value).GivesOrOfValue := by
  cases value with
  | arr values => exact givesOr_ok values
  | null | bool _ | int _ | float _ | str _ | obj _ => exact givesOr_error trivial

theorem givesOr_apply (op : Operator) (column : Fragment) (value : Json) (d : Dialect) (field : Bytes) :
    (op.apply column value d field).GivesOrOfValue := by
  cases op with
  | eq | neq | gt | gte | lt | lte | like | isNull | isNotNull => exact givesOr_ok _
  | ilike =>
    have required : (d.require .ilike).GivesOrOfValue := by
      unfold Dialect.require
      split_ifs
      · exact givesOr_ok _
      · exact givesOr_error trivial
    exact givesOr_bind required fun _ => givesOr_ok _
  | isIn | notIn => exact givesOr_bind (givesOr_requireArray _ _ _) fun _ => givesOr_ok _
  | between =>
    refine givesOr_bind (givesOr_requireArray _ _ _) fun values => ?_
    split
    · exact givesOr_ok _
    · exact givesOr_error trivial
  | contains | startsWith | endsWith => exact givesOr_bind (givesOr_requireText _ _ _) fun _ => givesOr_ok _

end Operator

namespace Limits

variable (limits : Limits) (field : Bytes) (type : ColumnType)

theorem givesOr_checkElement (value : Json) : (limits.checkElement field type value).GivesOrOfValue :=
  givesOr_mapError _ fun _ => trivial

theorem givesOr_checkArray (op : Operator) (value : Json) :
    (limits.checkArray field type op value).GivesOrOfValue := by
  refine givesOr_bind (Operator.givesOr_requireArray _ _ _) fun values => ?_
  split_ifs
  · exact givesOr_error trivial
  · exact givesOr_error trivial
  · exact givesOr_bind (givesOr_mapM (limits.givesOr_checkElement field type) values) fun _ => givesOr_ok _

theorem givesOr_checkValue (op : Operator) (value : Json) :
    (limits.checkValue field type op value).GivesOrOfValue := by
  cases op with
  | isNull | isNotNull => exact givesOr_ok _
  | isIn | notIn | between => exact limits.givesOr_checkArray _ _ _ _
  | like | ilike | contains | startsWith | endsWith => exact givesOr_mapError _ fun _ => trivial
  | eq | neq =>
    unfold checkValue
    dsimp only
    split_ifs
    · exact givesOr_ok _
    · exact limits.givesOr_checkElement _ _ _
  | gt | gte | lt | lte =>
    unfold checkValue
    dsimp only
    split_ifs
    · exact givesOr_error trivial
    · exact limits.givesOr_checkElement _ _ _

end Limits

/-! ## What is offered -/

/-- The fault of a filter on a field that is not filterable. -/
def Field.notFilterable (f : Field) : Fault :=
  .field f.name (Bytes.ofString "Field '" ++ f.name ++ "' is not filterable")

/-- The description offers a filter on a field that is spelled so. -/
def Table.Offers (t : Table) (name : Bytes) : Prop := ∃ g ∈ t.filters, g.kind = .dynamic ∧ g.condition.field = name

/-- A filter that the description offers leads to a field. -/
def Resolver.OffersOn (r : Resolver) (f : Field) : Prop := ∃ name, r.table.Offers name ∧ r.resolve name = some f

namespace Condition

/-- A filter of a request is refused for its field. -/
def Refused (c : Condition) (r : Resolver) (limits : Limits) (day : Day) : Prop :=
  ∃ name message, c.ofRequest r limits day = .error (.field name message)

variable {r : Resolver} {qualifier : Bytes} {t : Table} {d : Dialect} {c : Condition} {f : Field} {limits : Limits}
  {day : Day}

/-- A filter on a field that may not be filtered by is refused by the field's name. -/
theorem ofRequest_of_not_mayFilter (found : r.resolve c.field = some f) (may : r.mayFilter f = false) :
    c.ofRequest r limits day = .error f.notFilterable := by
  unfold ofRequest
  rw [found]
  dsimp only
  rw [may]
  rfl

/-- A filter on a field that may be filtered by is refused for its value, or for its operator, if at all. -/
theorem givesOr_ofRequest (limits : Limits) (day : Day) (found : r.resolve c.field = some f) (may : r.mayFilter f = true) :
    (c.ofRequest r limits day).GivesOrOfValue := by
  unfold ofRequest
  rw [found]
  dsimp only
  rw [may, Bool.not_true, if_neg Bool.false_ne_true]
  cases r.preset? f c.value with
  | some preset => exact givesOr_ok _
  | none => exact givesOr_bind (limits.givesOr_checkValue _ _ _ _) fun _ => c.op.givesOr_apply _ _ _ _

theorem refused_iff_not_mayFilter (found : r.resolve c.field = some f) :
    c.Refused r limits day ↔ r.mayFilter f = false := by
  constructor
  · rintro ⟨name, message, refused⟩
    rw [← Bool.not_eq_true]
    intro may
    obtain ⟨g, ok⟩ | ⟨fault, error, ofValue⟩ := givesOr_ofRequest limits day found may
    · rw [ok] at refused
      cases refused
    · rw [error] at refused
      cases refused
      exact ofValue
  · intro may
    exact ⟨_, _, ofRequest_of_not_mayFilter found may⟩

theorem isDynamicFilter_iff {name : Bytes} : r.isDynamicFilter name = true ↔ r.table.Offers name := by
  unfold Resolver.isDynamicFilter Table.Offers
  simp only [List.any_eq_true, Bool.and_eq_true, beq_iff_eq]

/-- An offer that is spelled as a field's own name is on the field, or on the column that shadows it. -/
theorem offersOn_or_shadows (hr : r.Describes qualifier t d) (found : r.resolve c.field = some f)
    (offered : t.Offers f.name) :
    r.OffersOn f ∨ ∃ b, b ≠ f ∧ r.Shadows b f ∧ r.resolve b.name = some b ∧ t.Offers b.name := by
  have leads {b : Field} (plain : r.resolvePlain f.name = some b) : r.resolve f.name = some b := by
    unfold Resolver.resolve
    rw [plain, Option.some_or]
  have on (back : r.resolve f.name = some f) : r.OffersOn f := ⟨f.name, hr.table ▸ offered, back⟩
  rcases hr.resolvePlain_or_mem_shadowed found with plain | mem
  · exact .inl (on (leads plain))
  · obtain ⟨b, plain, shadows⟩ := hr.resolvePlain_of_mem_shadowed mem
    have back := leads plain
    by_cases same : b = f
    · exact .inl (on (same ▸ back))
    · rw [← shadows.name] at back offered
      exact .inr ⟨b, same, shadows, back, offered⟩

/-- A filter on a field that is not filterable is refused just if no offer is spelled as the field's own name.

Where offers lead is another matter. The two come apart if offers lead to the field and none is spelled as its own name,
so that each has a qualifier; and if the offer of that spelling is on a column that shadows the field, and none leads
to the field. -/
theorem refused_iff (made : Resolver.ofTableAs qualifier t d = .ok r) (found : r.resolve c.field = some f)
    (scalar : f.scalar = true) (closed : f.filterable = false) (limits : Limits) (day : Day) :
    (c.Refused r limits day ↔ ¬t.Offers f.name)
    ∧ (c.Refused r limits day → c.ofRequest r limits day = .error f.notFilterable)
    ∧ (¬(c.Refused r limits day ↔ ¬r.OffersOn f) ↔
      r.OffersOn f ∧ ¬t.Offers f.name
      ∨ ¬r.OffersOn f ∧ ∃ b, b ≠ f ∧ r.Shadows b f ∧ r.resolve b.name = some b ∧ t.Offers b.name) := by
  have hr := Resolver.describes made
  have refused : c.Refused r limits day ↔ ¬t.Offers f.name := by
    rw [refused_iff_not_mayFilter found, Resolver.mayFilter, scalar, closed, Bool.true_and, Bool.false_or,
      ← Bool.not_eq_true, isDynamicFilter_iff, hr.table]
  refine ⟨refused, fun h => ofRequest_of_not_mayFilter found ((refused_iff_not_mayFilter found).mp h), ?_⟩
  rw [refused, not_iff_not]
  constructor
  · intro apart
    by_cases offered : t.Offers f.name
    · have without : ¬r.OffersOn f := fun on => apart (iff_of_true offered on)
      exact .inr ⟨without, (offersOn_or_shadows hr found offered).resolve_left without⟩
    · exact .inl ⟨of_not_not fun without => apart (iff_of_false offered without), offered⟩
  · rintro (⟨on, absent⟩ | ⟨without, b, -, shadows, -, offered⟩) same
    · exact absent (same.mpr on)
    · exact without (same.mp (shadows.name ▸ offered))

/-- Orders with their customers. Neither the notes nor the numbers are filterable; filters are offered on the notes,
with a qualifier, and on the numbers of the orders. -/
def ledger : Table where
  name := "orders"
  base := "orders"
  columns :=
    [{ name := "id", type := .number, filterable := false }, { name := "notes", filterable := false }]
  joins :=
    [.mk "users" "u" .left (.columns "user_id" "id") [{ name := "id", type := .number, filterable := false }] []]
  filters := [{ condition := { field := "orders.notes" } }, { condition := { field := "id" } }]

theorem refused_iff_ledger : ledger.validate none = .ok () ∧ ∃ r, Resolver.ofTableAs [] ledger .sqlite = .ok r
    ∧ (∃ f, r.resolve "notes" = some f ∧ r.OffersOn f
      ∧ ∀ limits day value, ofRequest r limits day { field := "notes", value }
        = .error (.field "notes" "Field 'notes' is not filterable"))
    ∧ (∃ f, r.resolve "u.id" = some f ∧ ¬r.OffersOn f
      ∧ ∀ limits day value, ¬Refused { field := "u.id", value } r limits day) := by
  obtain ⟨r, made⟩ : Checked.Succeeds (Resolver.ofTableAs [] ledger .sqlite) := ⟨_, rfl⟩
  have names {name : Bytes} : ledger.Offers name ↔ name = "orders.notes" ∨ name = "id" := by
    unfold Table.Offers ledger
    simp [eq_comm]
  have table : r.table = ledger := (Resolver.describes made).table
  refine ⟨by rfl, r, made, ?_, ?_⟩
  · obtain ⟨f, found⟩ : ∃ f, r.resolve "notes" = some f := by
      cases made
      exact ⟨_, rfl⟩
    have facts : f.scalar = true ∧ f.filterable = false ∧ f.name = "notes" ∧ r.resolve "orders.notes" = some f := by
      cases made
      cases found
      exact ⟨rfl, rfl, rfl, rfl⟩
    obtain ⟨scalar, closed, named, offered⟩ := facts
    refine ⟨f, found, ⟨_, table ▸ names.mpr (.inl rfl), offered⟩, fun limits day value => ?_⟩
    obtain ⟨refused, fault, -⟩ := refused_iff (c := { field := "notes", value }) made found scalar closed limits day
    rw [fault (refused.mpr (by rw [named, names]; decide)), Field.notFilterable, named]
    rfl
  · obtain ⟨f, found⟩ : ∃ f, r.resolve "u.id" = some f := by
      cases made
      exact ⟨_, rfl⟩
    have facts : f.scalar = true ∧ f.filterable = false ∧ f.name = "id" ∧ f.qualifier = "u" := by
      cases made
      cases found
      exact ⟨rfl, rfl, rfl, rfl⟩
    have others : (r.resolve "orders.notes").map Field.qualifier = some "orders"
        ∧ (r.resolve "id").map Field.qualifier = some "orders" := by
      cases made
      exact ⟨rfl, rfl⟩
    obtain ⟨scalar, closed, named, through⟩ := facts
    refine ⟨f, found, ?_, fun limits day value refused => ?_⟩
    · rintro ⟨name, offered, leads⟩
      rw [table, names] at offered
      have other : (r.resolve name).map Field.qualifier = some "orders" := by
        rcases offered with rfl | rfl
        · exact others.1
        · exact others.2
      rw [leads, Option.map_some, through] at other
      exact absurd other (by decide)
    · have spelled := refused_iff (c := { field := "u.id", value }) made found scalar closed limits day
      exact spelled.1.mp refused (names.mpr (.inr named))

end Condition

end TableQuery

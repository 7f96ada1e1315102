import TableQuery.Proofs.Access.Restriction
import TableQuery.Proofs.Field.Collision
import TableQuery.Proofs.Field.Reach
import TableQuery.Proofs.Statement.Asked
import TableQuery.Proofs.Validation.Reference

/-!
# What a caller may search and filter by

From what a description has searched and offers to filter by, the names of the columns go that a caller may not see. It
is the names that are compared, and two columns can have one name: look-up then finds one of them and covers the other,
a column of the base table that of a join, and a column of a join a computed one. If the caller may see the column that
is found and not the covered one, the entry goes for a column that it does not mean.

## What is proved

`Resolver.Describes.conceals_iff`: which names of columns that a caller may see are taken away.
`Table.keepsVisible_iff`: a caller keeps every entry whose column the caller may see, in order, just if no such column
covers one that the caller may not see.
-/

namespace TableQuery

variable {roles : List Bytes} {t : Table} {d : Dialect} {r : Resolver} {qualifier : Bytes}

namespace Resolver

/-! ## Columns behind others -/

/-- Look-up by a bare name finds one column where another has the name as well. -/
inductive Covers (r : Resolver) (f g : Field) : Prop where
  | shadowed (shadows : r.Shadows f g)
  | computed (joined : f ∈ r.joined) (own : g ∈ r.computedFields) (same : f.name = g.name)

variable {f g : Field} {name : Bytes}

theorem Covers.same (h : r.Covers f g) : f.name = g.name := by
  cases h with
  | shadowed shadows => exact shadows.name
  | computed _ _ same => exact same

theorem Covers.mem_known (h : r.Covers f g) : g ∈ r.known := by
  cases h with
  | shadowed shadows =>
    have mem := shadows.shadowed
    simp only [known, List.mem_append]
    tauto
  | computed _ own _ => exact mem_known_of_declared (List.mem_of_mem_filter own)

namespace Describes

variable (hr : r.Describes qualifier t d)
include hr

/-- What the name of a column finds is the column, or covers it. -/
theorem eq_or_covers (mem : g ∈ r.declared ∨ g ∈ r.joinFields) (found : r.resolve g.name = some f) :
    f = g ∨ r.Covers f g := by
  have split : g ∈ r.baseFields ∨ g ∈ r.computedFields ∨ g ∈ r.joined ∨ g ∈ r.shadowed := by
    rcases mem with mem | mem
    · by_cases computed : g.source = .computed
      · exact .inr (.inl (List.mem_filter.mpr ⟨mem, beq_iff_eq.mpr computed⟩))
      · exact .inl (List.mem_filter.mpr ⟨mem, bne_iff_ne.mpr computed⟩)
    · exact .inr (.inr (hr.mem_joined_or_shadowed.mp mem))
  have same {h : Field} (found' : r.resolve g.name = some h) : f = h := Option.some.inj (found.symm.trans found')
  rcases split with base | own | joined | shadowed
  · exact .inl (same (hr.resolve_of_mem_baseFields base))
  · by_cases free : ∀ h ∈ r.joined, h.name ≠ g.name
    · exact .inl (same (hr.resolve_of_mem_computedFields own free))
    · push Not at free
      obtain ⟨h, joined, named⟩ := free
      obtain rfl := same (named ▸ hr.resolve_of_mem_joined joined)
      exact .inr (.computed joined own named)
  · exact .inl (same (hr.resolve_of_mem_joined joined))
  · obtain ⟨h, -, shadows⟩ := hr.resolvePlain_of_mem_shadowed shadowed
    obtain rfl := same (shadows.name ▸ hr.resolve_of_mem_baseFields shadows.base)
    exact .inr (.shadowed shadows)

/-- What covers a column is what their name finds. -/
theorem resolve_of_covers (covers : r.Covers f g) : r.resolve f.name = some f := by
  cases covers with
  | shadowed shadows => exact hr.resolve_of_mem_baseFields shadows.base
  | computed joined _ _ => exact hr.resolve_of_mem_joined joined

/-- Each column of the description has a field. -/
theorem exists_field {c : Column} (mem : c ∈ t.allColumns) :
    ∃ g, (g ∈ r.declared ∨ g ∈ r.joinFields) ∧ g.name = c.name ∧ g.origin = .column c := by
  rcases List.mem_append.mp mem with mem | mem
  · refine ⟨Field.ofColumn d [qualifierOr qualifier t, t.base] (qualifierOr qualifier t) c, .inl ?_,
      ofColumn_name _ _ _ _, Field.origin_ofColumn _ _ _ _⟩
    rw [(addFields_eq hr.declared).1]
    exact List.mem_map_of_mem mem
  · rw [← t.columns_joinColumns, ← JoinPlan.columns_ofTable hr.joins] at mem
    obtain ⟨e, he, rfl⟩ := List.mem_map.mp mem
    exact ⟨Field.ofColumn r.dialect [r.baseQualifier, r.table.base] e.qualifier e.column,
      .inr (List.mem_map_of_mem he), ofColumn_name _ _ _ _, Field.origin_ofColumn _ _ _ _⟩

/-- The name of a column that a caller may see is taken away just if it is the column's own and the column covers one
that the caller may not see. -/
theorem conceals_iff (found : r.resolve name = some f) (visible : f.isVisibleTo roles = true) :
    t.Conceals roles name ↔ f.name = name ∧ ∃ g, r.Covers f g ∧ g.isVisibleTo roles = false := by
  constructor
  · intro concealed
    have own : f.name = name := by
      by_contra other
      exact not_mem_invisibleNames hr found (Ne.symm other) (Table.mem_invisibleNames_iff.mpr concealed)
    obtain ⟨c, mem, excluded, rfl⟩ := concealed
    obtain ⟨g, mem, named, origin⟩ := hr.exists_field mem
    have invisible : g.isVisibleTo roles = false := by
      rw [Field.isVisibleTo, origin]
      exact Column.excludes_iff.mp excluded
    rcases hr.eq_or_covers mem (named ▸ found) with rfl | covers
    · rw [visible] at invisible
      cases invisible
    · exact ⟨own, g, covers, invisible⟩
  · rintro ⟨rfl, g, covers, invisible⟩
    rw [← Table.mem_invisibleNames_iff, covers.same]
    exact hr.mem_invisibleNames covers.mem_known invisible

end Describes

end Resolver

namespace Table

/-! ## Entries -/

/-- The names that are searched. -/
def searched (t : Table) : List Bytes := (t.search.map Search.fields).getD []

/-- The filters on offer. -/
def offered (t : Table) : List ConfiguredFilter := t.filters.filter fun f => f.kind == .dynamic

/-- The names of what is searched and of what is offered to filter by. -/
def entries (t : Table) : List Bytes := t.searched ++ t.offered.map fun f => f.condition.field

end Table

/-- Whether a name finds a field that a caller with these roles may see. -/
def Resolver.findsVisible (r : Resolver) (roles : List Bytes) (name : Bytes) : Bool :=
  (r.resolve name).any (Field.isVisibleTo roles)

theorem Resolver.findsVisible_iff {name : Bytes} :
    r.findsVisible roles name = true ↔ ∃ f, r.resolve name = some f ∧ f.isVisibleTo roles = true := by
  unfold findsVisible
  cases r.resolve name <;> simp

namespace Table

/-- A caller keeps what is searched and what is offered to filter by, in order, wherever a field is meant that the
caller may see. -/
structure KeepsVisible (t : Table) (r : Resolver) (roles : List Bytes) : Prop where
  searched : (t.searched.filter (r.findsVisible roles)).Sublist (t.visibleTo roles).searched
  offered : (t.offered.filter fun f => r.findsVisible roles f.condition.field).Sublist (t.visibleTo roles).offered

theorem searched_visibleTo (t : Table) (roles : List Bytes) :
    (t.visibleTo roles).searched = t.searched.filter fun name => ¬t.Conceals roles name := by
  unfold searched
  rw [(derives_iff.mpr (rfl : t.visibleTo roles = _)).search]
  cases t.search <;> rfl

theorem offered_visibleTo (t : Table) (roles : List Bytes) :
    (t.visibleTo roles).offered = t.offered.filter fun f => ¬t.Conceals roles f.condition.field := by
  unfold offered
  rw [(derives_iff.mpr (rfl : t.visibleTo roles = _)).filters, List.filter_filter, List.filter_filter]
  refine List.filter_congr fun f _ => ?_
  cases f.kind <;> simp

/-- Of what a list has by one test, another takes nothing away just if it holds of all of it. -/
theorem filter_sublist_filter_iff {α : Type} {l : List α} {p q : α → Bool} :
    (l.filter p).Sublist (l.filter q) ↔ ∀ a ∈ l, p a = true → q a = true := by
  constructor
  · intro kept a mem has
    exact (List.mem_filter.mp (kept.subset (List.mem_filter.mpr ⟨mem, has⟩))).2
  · intro implies
    have among : l.filter p = (l.filter q).filter p := by
      rw [List.filter_filter]
      refine List.filter_congr fun a mem => ?_
      rw [Bool.eq_iff_iff, Bool.and_eq_true]
      exact ⟨fun has => ⟨has, implies a mem has⟩, And.left⟩
    rw [among]
    exact List.filter_sublist

/-- A caller keeps what the caller may see just if no name of it is taken away. -/
theorem keepsVisible_iff_not_conceals :
    t.KeepsVisible r roles ↔ ∀ name ∈ t.entries, r.findsVisible roles name = true → ¬t.Conceals roles name := by
  rw [entries, List.forall_mem_append, List.forall_mem_map]
  constructor
  · rintro ⟨searched, offered⟩
    rw [searched_visibleTo, filter_sublist_filter_iff] at searched
    rw [offered_visibleTo, filter_sublist_filter_iff] at offered
    simp only [decide_eq_true_eq] at searched offered
    exact ⟨searched, offered⟩
  · rintro ⟨searched, offered⟩
    constructor
    · rw [searched_visibleTo, filter_sublist_filter_iff]
      simpa using searched
    · rw [offered_visibleTo, filter_sublist_filter_iff]
      simpa using offered

variable {catalog : Option Catalog}

/-- What is searched and offered to filter by in a validated description, as a caller gets it. Of the names of columns
that the caller may see, those go that are the columns' own and also the name of a covered column that the caller may
not see. So the caller keeps every such entry, in order, just if none of them is about a column that covers one which
is kept from the caller. -/
theorem keepsVisible_iff (valid : t.validate catalog = .ok ()) :
    (∃ r, Resolver.ofTable t .unknown = .ok r) ∧ ∀ d r roles, Resolver.ofTable t d = .ok r →
      (∀ name f, r.resolve name = some f → f.isVisibleTo roles = true →
        (t.Conceals roles name ↔ f.name = name ∧ ∃ g, r.Covers f g ∧ g.isVisibleTo roles = false))
      ∧ (t.KeepsVisible r roles ↔ ∀ f g, r.Covers f g → f.name ∈ t.entries → f.isVisibleTo roles = true →
        g.isVisibleTo roles = true) := by
  obtain ⟨validated, made, -⟩ := refers_of_validate valid
  refine ⟨⟨validated, made⟩, fun d r roles made => ?_⟩
  have hr := Resolver.describes made
  refine ⟨fun name f found visible => hr.conceals_iff found visible, ?_⟩
  rw [keepsVisible_iff_not_conceals]
  constructor
  · intro kept f g covers mem visible
    by_contra invisible
    have found := hr.resolve_of_covers covers
    have finds : r.findsVisible roles f.name = true := Resolver.findsVisible_iff.mpr ⟨f, found, visible⟩
    have taken := (hr.conceals_iff found visible).mpr ⟨rfl, g, covers, Bool.eq_false_iff.mpr invisible⟩
    exact kept f.name mem finds taken
  · intro kept name mem finds concealed
    obtain ⟨f, found, visible⟩ := Resolver.findsVisible_iff.mp finds
    obtain ⟨rfl, g, covers, invisible⟩ := (hr.conceals_iff found visible).mp concealed
    have shown := kept f g covers mem visible
    rw [invisible] at shown
    cases shown

/-- Orders with the names of their users behind their own, and with a computed total behind that of their shipments. -/
def shipments : Table where
  name := "orders"
  base := "orders"
  columns :=
    [{ name := "id", type := .number }, { name := "name" },
      { name := "total", computed := true, expression := some ⟨"price * amount"⟩, visibleTo := ["hr"] }]
  joins :=
    [.mk "users" "u" .left (.columns "user_id" "id") [{ name := "name", visibleTo := ["hr"] }] [],
      .mk "shipments" "s" .left (.columns "id" "order_id") [{ name := "total" }] []]
  filters := [{ condition := { field := "name" } }, { condition := { field := "total" } }]
  search := some { fields := ["name", "id", "total"] }

/-- Without the role, a caller may see the orders' own names and the totals of the shipments, and can search and filter
by neither. -/
theorem keepsVisible_iff_shipments :
    ∃ r f g, shipments.validate none = .ok () ∧ Resolver.ofTable shipments .unknown = .ok r
      ∧ r.resolve "name" = some f ∧ f.isVisibleTo [] = true ∧ r.Covers f g ∧ g.isVisibleTo [] = false
      ∧ ¬shipments.KeepsVisible r []
      ∧ (shipments.visibleTo []).searched = ["id"] ∧ (shipments.visibleTo []).offered = [] := by
  have valid : shipments.validate none = .ok () := rfl
  obtain ⟨⟨r, made⟩, all⟩ := keepsVisible_iff valid
  obtain ⟨conceals, keeps⟩ := all .unknown r [] made
  obtain ⟨f, found, visible⟩ : ∃ f, r.resolve "name" = some f ∧ f.isVisibleTo [] = true := by
    cases made
    exact ⟨_, rfl, rfl⟩
  obtain ⟨named, g, covers, invisible⟩ := (conceals "name" f found visible).mp (by decide)
  refine ⟨r, f, g, valid, made, found, visible, covers, invisible, ?_, by decide, by decide⟩
  intro kept
  have shown := keeps.mp kept f g covers (by rw [named]; decide) visible
  rw [invisible] at shown
  cases shown

end Table

end TableQuery

import TableQuery.Proofs.Access.Visibility
import TableQuery.Proofs.Statement.Keyset
import TableQuery.Statement.Compiled

/-!
# What the data of a page are read from

The selection of a data plan has an item for each chosen field and, on a page by cursor, one for each term of the
order, under the name of a boundary value. The chosen fields are among those that are not hidden, whichever way they
are chosen: by name, as the `id` that every selection has, or all of them. The terms of an order are fields that are
not hidden either: `Keyset.mem_activeOrder` says so of requested keys, of the description's own order and of the key
that ends it.

A select list chooses by the names in it that a field to be selected has. Nothing else in the list matters.

## What is proved

`Resolver.chosenFields_congr`: select lists that name the same fields choose the same.
`Table.Selects.mayShow`: each item reads a field that the caller may be shown.
-/

namespace TableQuery

variable {roles : List Bytes} {t : Table} {d : Dialect} {r : Resolver}

/-- The order whose values a page hands on to the next one; none of a page by number. -/
def Paging.boundary : Paging → List OrderTerm
  | byNumber _ => []
  | byCursor k => k.order

namespace Resolver

/-- A field that may be shown to a caller with these roles: it is not hidden, and the caller may see its column. -/
structure MayShow (r : Resolver) (roles : List Bytes) (f : Field) : Prop where
  known : f ∈ r.known
  shown : f.hidden = false
  visible : f.isVisibleTo roles = true

/-- An item of a selection reads a field: as the field is selected, or for the boundary of a page. -/
inductive Reads (r : Resolver) (f : Field) : SelectItem → Prop where
  | chosen {item : SelectItem} (made : r.selectionOf f = .ok item) : Reads r f item
  | boundary : Reads r f { name := Keyset.boundaryName f.name, expression := f.expression }

/-! ## Chosen fields -/

theorem mem_selectable {f : Field} : f ∈ r.selectable ↔ f ∈ r.fields ∧ f.hidden = false := by
  unfold selectable
  rw [List.mem_filter, Field.supports, Bool.not_eq_true']

theorem mem_withId {chosen : List Field} {f : Field} (mem : f ∈ r.withId chosen) :
    f ∈ r.selectable ∨ f ∈ chosen := by
  unfold withId at mem
  cases found : find? idName r.fields with
  | none =>
    rw [found] at mem
    exact .inr mem
  | some id =>
    rw [found] at mem
    dsimp only at mem
    split_ifs at mem with wanted
    · rcases List.mem_cons.mp mem with rfl | mem
      · rw [Bool.and_eq_true, Field.supports, Bool.not_eq_true'] at wanted
        exact .inl (mem_selectable.mpr ⟨(find?_eq_some found).1, wanted.1⟩)
      · exact .inr mem
    · exact .inr mem

/-- Whichever way the fields of a response are chosen, they are among those that may be selected. -/
theorem mem_chosenFields {select : List Bytes} {f : Field} (mem : f ∈ r.chosenFields select) :
    f ∈ r.selectable := by
  unfold chosenFields at mem
  split_ifs at mem
  · exact mem
  · split at mem
    · exact mem
    · rcases mem_withId mem with mem | mem
      · exact mem
      · exact List.mem_of_mem_filter mem

variable {select select' : List Bytes}

/-- The first field of the name `id`, where it can be selected and a select list does not name it. -/
def unnamedId (r : Resolver) (select : List Bytes) : List Field :=
  ((find? idName r.fields).filter fun f => f.supports .select && !select.contains idName).toList

/-- A select list with no name of a field that can be selected selects all of them. -/
theorem chosenFields_of_unnamed (unnamed : ∀ f ∈ r.selectable, f.name ∉ select) :
    r.chosenFields select = r.selectable := by
  have none : r.selectable.filter (fun f => select.contains f.name) = [] := by
    rw [List.filter_eq_nil_iff]
    intro f mem named
    exact unnamed f mem (List.contains_iff_mem.mp named)
  unfold chosenFields
  split_ifs
  · rfl
  · rw [none]

/-- A select list that names a field that can be selected selects those that it names, with the `id` in front. -/
theorem chosenFields_of_named {f : Field} (mem : f ∈ r.selectable) (named : f.name ∈ select) :
    r.chosenFields select = r.unnamedId select ++ r.selectable.filter fun f => select.contains f.name := by
  have among : f ∈ r.selectable.filter fun f => select.contains f.name :=
    List.mem_filter.mpr ⟨mem, List.contains_iff_mem.mpr named⟩
  have chosen : r.chosenFields select = r.withId (r.selectable.filter fun f => select.contains f.name) := by
    unfold chosenFields
    rw [if_neg (by simpa using List.ne_nil_of_mem named)]
    split
    · next none =>
      rw [none] at among
      cases among
    · rfl
  rw [chosen]
  unfold withId unnamedId
  cases found : find? idName r.fields with
  | none => rfl
  | some id =>
    obtain ⟨own, isId⟩ := find?_eq_some found
    -- a selected field has the name just if the list does, since the `id` itself can be selected
    by_cases selects : id.supports .select = true
    · have mentions : (r.selectable.filter fun f => select.contains f.name).any (fun c => c.name == idName)
          = select.contains idName := by
        rw [Bool.eq_iff_iff, List.any_eq_true]
        constructor
        · rintro ⟨g, mem, isId⟩
          rw [← beq_iff_eq.mp isId]
          exact (List.mem_filter.mp mem).2
        · intro named
          refine ⟨id, List.mem_filter.mpr ⟨List.mem_filter.mpr ⟨own, selects⟩, ?_⟩, beq_iff_eq.mpr isId⟩
          rwa [isId]
      dsimp only
      rw [mentions, selects, Option.filter_some, selects, Bool.true_and]
      split_ifs <;> rfl
    · simp [Option.filter_some, selects]

/-- What is selected depends only on which of the fields that can be selected the list names. -/
theorem chosenFields_congr (same : ∀ f ∈ r.selectable, f.name ∈ select' ↔ f.name ∈ select) :
    r.chosenFields select' = r.chosenFields select := by
  by_cases unnamed : ∀ f ∈ r.selectable, f.name ∉ select
  · rw [chosenFields_of_unnamed unnamed,
      chosenFields_of_unnamed fun f mem => (same f mem).not.mpr (unnamed f mem)]
  · push Not at unnamed
    obtain ⟨f, mem, named⟩ := unnamed
    have filtered : r.selectable.filter (fun f => select'.contains f.name)
        = r.selectable.filter fun f => select.contains f.name := by
      refine List.filter_congr fun g mem => ?_
      rw [Bool.eq_iff_iff, List.contains_iff_mem, List.contains_iff_mem]
      exact same g mem
    have ids : r.unnamedId select' = r.unnamedId select := by
      unfold unnamedId
      cases found : find? idName r.fields with
      | none => rfl
      | some id =>
        obtain ⟨own, isId⟩ := find?_eq_some found
        by_cases selects : id.supports .select = true
        · have named := same id (List.mem_filter.mpr ⟨own, selects⟩)
          rw [isId] at named
          simp [Option.filter_some, selects, named]
        · simp [Option.filter_some, selects]
    rw [chosenFields_of_named mem named, chosenFields_of_named mem ((same f mem).mpr named), filtered, ids]

theorem mem_known_of_mem_fields {f : Field} (mem : f ∈ r.fields) : f ∈ r.known := by
  unfold fields at mem
  unfold known
  simp only [List.mem_append] at mem ⊢
  rcases mem with (mem | mem) | mem
  · exact .inl (.inl (.inl mem))
  · exact .inl (.inl (.inr mem))
  · exact .inr mem

/-- A field that a caller gets and that is not hidden is a field as written, which the caller may be shown. -/
theorem mayShow_of_mem {f : Field} (mem : f ∈ (r.restrict roles).known) (shown : f.hidden = false) :
    r.MayShow roles f := by
  rw [known_restrict] at mem
  obtain ⟨g, hg, rfl⟩ := List.mem_map.mp mem
  have visible := Field.isVisibleTo_of_not_hidden shown
  rw [Field.restrict_of_visible visible] at shown ⊢
  exact ⟨hg, shown, visible⟩

/-! ## The data plan -/

/-- The selection of a page: the chosen fields, and the boundary values on a page by cursor. -/
theorem select_of_dataPlan {p : Params} {select : List SelectItem} {condition : Fragment} {plan : Plan}
    {paging : Paging} (h : r.dataPlan p select condition = .ok (plan, paging)) :
    plan.select = select ++ paging.boundary.map boundaryItem
      ∧ ∀ term ∈ paging.boundary, Keyset.IsTermOf r term := by
  unfold dataPlan at h
  cases cursor : p.cursor with
  | none =>
    rw [cursor] at h
    cases h
    exact ⟨(List.append_nil select).symm, List.forall_mem_nil _⟩
  | some token =>
    rw [cursor] at h
    obtain ⟨keyset, hkeyset, h⟩ := Checked.bind_eq_ok.mp h
    cases h
    exact ⟨rfl, fun term mem => Keyset.mem_activeOrder (Keyset.activeOrder_of_ofRequest hkeyset) mem⟩

end Resolver

namespace Table

variable {p p' : Params} {c : Context} {clock : Instant} {compiled : Compiled}

/-- Of a request, a statement takes in the condition, the chosen fields and the page. -/
theorem compile_congr
    (same : ∀ e r, t.effective c = .ok e → Resolver.ofTable e d = .ok r →
      (∀ day, r.condition p' c day = r.condition p c day)
      ∧ r.chosenFields p'.select = r.chosenFields p.select
      ∧ ∀ select condition, r.dataPlan p' select condition = r.dataPlan p select condition) :
    t.compile d p' c clock = t.compile d p c clock := by
  unfold compile
  cases he : t.effective c with
  | error fault => rfl
  | ok e =>
    cases hr : Resolver.ofTable e d with
    | error fault =>
      dsimp only [bind, Except.bind]
      rw [hr]
    | ok r =>
      obtain ⟨condition, chosen, page⟩ := same e r he hr
      dsimp only [bind, Except.bind]
      rw [hr]
      dsimp only
      rw [condition, chosen]
      simp only [page]

/-- What the data of an answer are selected by: the fields of the response, and the boundary values of a page. -/
structure Selects (t : Table) (d : Dialect) (p : Params) (c : Context) (compiled : Compiled) (r : Resolver) :
    Prop where
  written : Resolver.ofTable t d = .ok r
  fields : compiled.outputFields = ((r.restrict c.roles).chosenFields p.select).map Field.name
  items : ∃ items, ((r.restrict c.roles).chosenFields p.select).mapM (r.restrict c.roles).selectionOf = .ok items
    ∧ compiled.data.select = items ++ compiled.paging.boundary.map Resolver.boundaryItem
  terms : ∀ term ∈ compiled.paging.boundary, Keyset.IsTermOf (r.restrict c.roles) term

theorem exists_selects (made : t.compile d p c clock = .ok compiled) : ∃ r, t.Selects d p c compiled r := by
  unfold compile at made
  obtain ⟨e, he, made⟩ := Checked.bind_eq_ok.mp made
  obtain ⟨s, hs, made⟩ := Checked.bind_eq_ok.mp made
  obtain ⟨r, hr, rfl⟩ := fields_of_effective he hs
  obtain ⟨condition, -, made⟩ := Checked.bind_eq_ok.mp made
  obtain ⟨items, hitems, made⟩ := Checked.bind_eq_ok.mp made
  obtain ⟨⟨data, paging⟩, hdata, made⟩ := Checked.bind_eq_ok.mp made
  obtain ⟨aggregations, -, made⟩ := Checked.bind_eq_ok.mp made
  cases made
  obtain ⟨selected, terms⟩ := Resolver.select_of_dataPlan hdata
  exact ⟨r, hr, rfl, ⟨items, hitems, selected⟩, terms⟩

namespace Selects

variable (h : t.Selects d p c compiled r)
include h

/-- Each item of the data's selection reads a field that the caller may be shown. -/
theorem mayShow {item : SelectItem} (mem : item ∈ compiled.data.select) :
    ∃ f, r.MayShow c.roles f ∧ r.Reads f item := by
  obtain ⟨items, hitems, selected⟩ := h.items
  rw [selected] at mem
  rcases List.mem_append.mp mem with mem | mem
  · obtain ⟨f, hf, made⟩ := Checked.exists_of_mem_mapM hitems mem
    obtain ⟨known, shown⟩ := Resolver.mem_selectable.mp (Resolver.mem_chosenFields hf)
    exact ⟨f, Resolver.mayShow_of_mem (Resolver.mem_known_of_mem_fields known) shown, .chosen made⟩
  · obtain ⟨term, hterm, rfl⟩ := List.mem_map.mp mem
    obtain ⟨name, f, found, -, shown, field, expression⟩ := h.terms term hterm
    refine ⟨f, Resolver.mayShow_of_mem (Resolver.mem_of_resolve found) shown, ?_⟩
    unfold Resolver.boundaryItem
    rw [field, expression]
    exact .boundary

/-- Where nothing is selected by name, the response has no fields and the page no boundary. -/
theorem of_select_eq_nil (empty : compiled.data.select = []) :
    compiled.outputFields = [] ∧ compiled.paging.boundary = [] := by
  obtain ⟨items, hitems, selected⟩ := h.items
  obtain ⟨unselected, unordered⟩ := List.append_eq_nil_iff.mp (selected.symm.trans empty)
  rw [unselected, Checked.mapM_eq_ok, List.forall₂_nil_right_iff] at hitems
  constructor
  · rw [h.fields, hitems]
    rfl
  · exact List.map_eq_nil_iff.mp unordered

end Selects

end Table

end TableQuery

import TableQuery.Proofs.Statement.Output
import TableQuery.Response.Basic

/-!
# One name in the selection, in look-up and in the response

A name is looked up three times. The selection takes the fields in the order in which they are declared; a filter or
a sort key looks for a base column, then a column of a join, then a computed column, then a subquery; and the
response is shaped by the first of the table's own columns, computed or not, and then by those of the joins. The
three meet at one field unless a computed column, a column of a join or a subquery shares its name with another.

## What is proved

`Resolver.Describes.agrees_iff`: an exposed field is what its name finds in both other places exactly if no other
exposed column has the name. `Table.outputs_agree_iff` says so of the output fields of a request.
-/

namespace TableQuery

/-- The column that declares a field, none for a subquery. -/
def Field.ownColumn? (f : Field) : Option Column :=
  match f.origin with
  | .column c => some c
  | .subquery _ => none

theorem Field.ownColumn?_ofColumn (d : Dialect) (baseNames : List Bytes) (table : Bytes) (c : Column) :
    (ofColumn d baseNames table c).ownColumn? = some c := by
  unfold ownColumn?
  rw [origin_ofColumn]

theorem Field.ownColumn?_ofSubquery {d : Dialect} {s : Subquery} {f : Field} (made : ofSubquery d s = .ok f) :
    f.ownColumn? = none := by
  unfold ofSubquery at made
  split at made
  · cases made
    rfl
  · obtain ⟨expression, -, made⟩ := Checked.bind_eq_ok.mp made
    cases made
    rfl

/-- A column that is the only one of its name in a list is found there by its name. -/
theorem Column.find?_name {c : Column} {columns : List Column} (mem : c ∈ columns)
    (alone : ∀ b ∈ columns, b.name = c.name → b = c) : (columns.find? fun b => b.name == c.name) = some c := by
  cases found : columns.find? fun b => b.name == c.name with
  | none => exact absurd (beq_self_eq_true c.name) (List.find?_eq_none.mp found c mem)
  | some b =>
    have named := List.find?_some found
    rw [alone b (List.mem_of_find?_eq_some found) (beq_iff_eq.mp named)]

/-! ## The columns of joins in two orders -/

namespace Join

mutual

theorem mem_allColumns {c : Column} {j : Join} : c ∈ j.allColumns ↔ c ∈ j.columns ∨ c ∈ j.columnsBelow := by
  cases j with
  | mk table tableAlias type condition columns joins =>
    rw [allColumns, columnsBelow, List.mem_append, List.mem_append, mem_allColumnsOf]
    rfl

theorem mem_allColumnsOf {c : Column} {js : List Join} :
    c ∈ allColumnsOf js ↔ c ∈ js.flatMap columns ∨ c ∈ columnsBelowAll js := by
  cases js with
  | nil => rw [allColumnsOf, List.flatMap_nil, columnsBelowAll, or_self]
  | cons j rest =>
    rw [allColumnsOf, List.flatMap_cons, columnsBelowAll, List.mem_append, List.mem_append, List.mem_append,
      mem_allColumns, mem_allColumnsOf]
    tauto

end

/-- The columns of joins in the order in which a response looks through them. -/
def searched (js : List Join) : List Column := js.flatMap columns ++ columnsBelowAll js

theorem mem_searched {c : Column} {js : List Join} : c ∈ searched js ↔ c ∈ allColumnsOf js :=
  List.mem_append.trans mem_allColumnsOf.symm

end Join

/-! ## The three look-ups -/

namespace Resolver

variable {r : Resolver} {qualifier : Bytes} {t : Table} {d : Dialect} {f g : Field} {name : Bytes}

theorem names_ownFields : (ownFields qualifier t d).map Field.name = t.columns.map Column.name := by
  unfold ownFields
  rw [List.map_map]
  exact List.map_congr_left fun c _ => ofColumn_name _ _ _ c

namespace Describes

variable (hr : r.Describes qualifier t d)
include hr

theorem names_joinFields : r.joinFields.map Field.name = (Join.allColumnsOf t.joins).map Column.name := by
  rw [← t.columns_joinColumns, ← JoinPlan.columns_ofTable hr.joins, List.map_map]
  unfold joinFields
  rw [List.map_map]
  exact List.map_congr_left fun c _ => ofColumn_name _ _ _ _

/-! ### In the response -/

theorem nodup_columns : (t.columns.map Column.name).Nodup := by
  have distinct := hr.nodup_declared
  rwa [(addFields_eq hr.declared).1, names_ownFields] at distinct

theorem findColumn?_of_mem_declared (mem : f ∈ r.declared) : t.findColumn? f.name = f.ownColumn? := by
  rw [(addFields_eq hr.declared).1] at mem
  obtain ⟨c, hc, rfl⟩ := List.mem_map.mp mem
  rw [Field.ownColumn?_ofColumn, ofColumn_name]
  exact Column.find?_name hc fun b hb same => List.inj_on_of_nodup_map hr.nodup_columns hb hc same

theorem findColumn?_eq_none (free : ∀ g ∈ r.declared, g.name ≠ name) : t.findColumn? name = none := by
  unfold Table.findColumn?
  rw [List.find?_eq_none]
  intro c mem same
  have named : c.name ∈ r.declared.map Field.name := by
    rw [(addFields_eq hr.declared).1, names_ownFields]
    exact List.mem_map_of_mem mem
  obtain ⟨g, hg, other⟩ := List.mem_map.mp named
  exact free g hg (other.trans (beq_iff_eq.mp same))

/-- An own column's name finds the column itself. -/
theorem outputColumn?_of_mem_declared (mem : f ∈ r.declared) : t.outputColumn? f.name = f.ownColumn? := by
  have found := hr.findColumn?_of_mem_declared mem
  rw [(addFields_eq hr.declared).1] at mem
  obtain ⟨c, -, rfl⟩ := List.mem_map.mp mem
  unfold Table.outputColumn?
  rw [found, Field.ownColumn?_ofColumn, Option.some_or]

/-- The name of a join's column finds it where no own column has the name. -/
theorem outputColumn?_of_mem_joined (mem : f ∈ r.joined) (free : ∀ g ∈ r.declared, g.name ≠ f.name) :
    t.outputColumn? f.name = f.ownColumn? := by
  have distinct := hr.nodup_joinFields
  rw [hr.names_joinFields] at distinct
  rw [hr.joined] at mem
  obtain ⟨e, he, rfl⟩ := List.mem_map.mp (List.mem_of_mem_filter mem)
  have drawn : e.column ∈ Join.allColumnsOf t.joins := by
    rw [← t.columns_joinColumns, ← JoinPlan.columns_ofTable hr.joins]
    exact List.mem_map_of_mem he
  unfold Table.outputColumn?
  rw [hr.findColumn?_eq_none free, Option.none_or, Field.ownColumn?_ofColumn, ofColumn_name]
  refine Column.find?_name (Join.mem_searched.mpr drawn) fun b hb same => ?_
  exact List.inj_on_of_nodup_map distinct (Join.mem_searched.mp hb) drawn same

/-- A name that no exposed column has finds no column: a shadowed one has the name of a column that is exposed. -/
theorem outputColumn?_eq_none (free : ∀ g ∈ r.declared ++ r.joined, g.name ≠ name) :
    t.outputColumn? name = none := by
  rw [List.forall_mem_append] at free
  unfold Table.outputColumn?
  rw [hr.findColumn?_eq_none free.1, Option.none_or, List.find?_eq_none]
  intro c mem same
  have named : c.name ∈ r.joinFields.map Field.name := by
    rw [hr.names_joinFields]
    exact List.mem_map_of_mem (Join.mem_searched.mp mem)
  obtain ⟨g, hg, other⟩ := List.mem_map.mp named
  have same : g.name = name := other.trans (beq_iff_eq.mp same)
  by_cases shadowed : r.shadows g = true
  · obtain ⟨b, hb, above⟩ := shadows_eq_true.mp shadowed
    exact free.1 b (List.mem_of_mem_filter hb) (above.trans same)
  · rw [Bool.not_eq_true, ← Bool.not_eq_true'] at shadowed
    refine free.2 g ?_ same
    rw [hr.joined]
    exact List.mem_filter.mpr ⟨hg, shadowed⟩

/-! ### Whether the two agree -/

theorem exists_ownColumn? (mem : g ∈ r.declared ++ r.joined) : ∃ c, g.ownColumn? = some c := by
  rcases List.mem_append.mp mem with mem | mem
  · rw [(addFields_eq hr.declared).1] at mem
    obtain ⟨c, -, rfl⟩ := List.mem_map.mp mem
    exact ⟨c, Field.ownColumn?_ofColumn ..⟩
  · rw [hr.joined] at mem
    obtain ⟨e, -, rfl⟩ := List.mem_map.mp (List.mem_of_mem_filter mem)
    exact ⟨e.column, Field.ownColumn?_ofColumn ..⟩

theorem ownColumn?_of_mem_subqueries (mem : f ∈ r.subqueries) : f.ownColumn? = none := by
  obtain ⟨s, -, made⟩ := Checked.exists_of_mem_mapM (addSubqueries_eq hr.subqueries) mem
  exact Field.ownColumn?_ofSubquery made

/-- A computed column of the table and one of a join make one field if they are the same column. -/
theorem eq_of_computed (own : g ∈ r.computedFields) (joined : f ∈ r.joined) (same : g.ownColumn? = f.ownColumn?) :
    g = f := by
  obtain ⟨own, computed⟩ := List.mem_filter.mp own
  rw [(addFields_eq hr.declared).1] at own
  rw [hr.joined] at joined
  obtain ⟨c, -, rfl⟩ := List.mem_map.mp own
  obtain ⟨e, -, rfl⟩ := List.mem_map.mp (List.mem_of_mem_filter joined)
  rw [Field.ownColumn?_ofColumn, Field.ownColumn?_ofColumn, Option.some.injEq] at same
  have marked : c.computed = true := by
    by_contra read
    refine source_ne_computed ?_ (beq_iff_eq.mp computed)
    unfold Field.isTableColumn
    rw [Field.origin_ofColumn]
    change (!c.computed) = true
    rw [Bool.not_eq_true']
    exact Bool.eq_false_iff.mpr read
  unfold Field.ofColumn
  rw [← same, if_pos marked, if_pos marked]

end Describes

/-- A field is what its name finds: in look-up the field itself, in the response its own column. -/
structure Agrees (r : Resolver) (f : Field) : Prop where
  resolved : r.resolve f.name = some f
  shaped : r.table.outputColumn? f.name = f.ownColumn?

namespace Describes

variable (hr : r.Describes qualifier t d)
include hr

/-- Where the two look-ups agree on a field, no other column of a join has its name. -/
theorem eq_of_agrees (agrees : r.Agrees f) (joined : g ∈ r.joined)
    (same : g.name = f.name) : g = f := by
  have found := hr.resolve_of_mem_joined joined
  rw [same, agrees.resolved] at found
  exact (Option.some.inj found).symm

/-- Where they agree on a column of a join, no other own column has its name. -/
theorem eq_of_agrees_joined (joined : f ∈ r.joined) (agrees : r.Agrees f) (own : g ∈ r.declared)
    (same : g.name = f.name) : g = f := by
  by_cases computed : g.source = .computed
  · refine hr.eq_of_computed (List.mem_filter.mpr ⟨own, beq_iff_eq.mpr computed⟩) joined ?_
    rw [← hr.outputColumn?_of_mem_declared own, same, ← hr.table]
    exact agrees.shaped
  · have base : g ∈ r.baseFields := List.mem_filter.mpr ⟨own, bne_iff_ne.mpr computed⟩
    exact absurd same (hr.name_ne_of_mem_joined base joined)

/-- Where they agree on a subquery, no column has its name. -/
theorem name_ne_of_agrees_subquery (subquery : f ∈ r.subqueries) (agrees : r.Agrees f)
    (column : g ∈ r.declared ++ r.joined) : g.name ≠ f.name := by
  intro same
  obtain ⟨c, declares⟩ := hr.exists_ownColumn? column
  have undeclared := hr.ownColumn?_of_mem_subqueries subquery
  rcases List.mem_append.mp column with own | joined
  · have shaped := agrees.shaped
    rw [← same, hr.table, hr.outputColumn?_of_mem_declared own, declares, undeclared] at shaped
    cases shaped
  · have found := hr.resolve_of_mem_joined joined
    rw [same, agrees.resolved, Option.some.injEq] at found
    rw [← found, undeclared] at declares
    cases declares

/-- A field is what its name finds if no other column has the name. -/
theorem agrees_of_alone (mem : f ∈ r.fields) (alone : ∀ g ∈ r.declared ++ r.joined, g.name = f.name → g = f) :
    r.Agrees f := by
  rcases List.mem_append.mp mem with column | subquery
  · constructor
    · -- A column of a join is found before a computed one, and by `alone` is the same field.
      by_cases joined : f ∈ r.joined
      · exact hr.resolve_of_mem_joined joined
      have own : f ∈ r.declared := (List.mem_append.mp column).resolve_right joined
      by_cases computed : f.source = .computed
      · refine hr.resolve_of_mem_computedFields (List.mem_filter.mpr ⟨own, beq_iff_eq.mpr computed⟩) ?_
        exact fun g hg same => joined (alone g (List.mem_append_right _ hg) same ▸ hg)
      · exact hr.resolve_of_mem_baseFields (List.mem_filter.mpr ⟨own, bne_iff_ne.mpr computed⟩)
    · rw [hr.table]
      by_cases own : f ∈ r.declared
      · exact hr.outputColumn?_of_mem_declared own
      · refine hr.outputColumn?_of_mem_joined ((List.mem_append.mp column).resolve_left own) ?_
        exact fun g hg same => own (alone g (List.mem_append_left _ hg) same ▸ hg)
  · have undeclared := hr.ownColumn?_of_mem_subqueries subquery
    have free : ∀ g ∈ r.declared ++ r.joined, g.name ≠ f.name := by
      intro g hg same
      obtain ⟨c, declares⟩ := hr.exists_ownColumn? hg
      rw [alone g hg same, undeclared] at declares
      cases declares
    exact ⟨hr.resolve_of_mem_subqueries subquery free, by rw [hr.table, hr.outputColumn?_eq_none free, undeclared]⟩

/-- An exposed field is what its name finds exactly if no other exposed column has the name. -/
theorem agrees_iff (mem : f ∈ r.fields) :
    r.Agrees f ↔ ∀ g ∈ r.declared ++ r.joined, g.name = f.name → g = f := by
  refine ⟨fun agrees g column same => ?_, hr.agrees_of_alone mem⟩
  rcases List.mem_append.mp mem with mem | subquery
  · rcases List.mem_append.mp mem with own | joined
    · rcases List.mem_append.mp column with own' | joined'
      · exact hr.eq_of_mem_declared own own' same
      · exact hr.eq_of_agrees agrees joined' same
    · rcases List.mem_append.mp column with own' | joined'
      · exact hr.eq_of_agrees_joined joined agrees own' same
      · exact hr.eq_of_mem_joined joined joined' same
  · exact absurd same (hr.name_ne_of_agrees_subquery subquery agrees column)

end Describes

end Resolver

namespace Table

variable {t : Table} {d : Dialect} {p : Params} {c : Context} {clock : Instant} {compiled : Compiled}

/-- Each output field of a request is the name of a chosen field, which the data select. Filters and sort keys of
the name act on that field, and the response is shaped by its own column, exactly if no other column that the caller
gets has the name. -/
theorem outputs_agree_iff (made : t.compile d p c clock = .ok compiled) :
    ∃ e r, t.effective c = .ok e ∧ Resolver.ofTable e d = .ok r ∧ r.table = e
      ∧ compiled.outputFields = (r.chosenFields p.select).map Field.name
      ∧ ∀ f ∈ r.chosenFields p.select,
        (∃ item ∈ compiled.data.select, item.name = f.name ∧ r.selectionOf f = .ok item)
        ∧ (r.resolve f.name = some f ∧ e.outputColumn? f.name = f.ownColumn?
          ↔ ∀ g ∈ r.declared ++ r.joined, g.name = f.name → g = f) := by
  obtain ⟨r, items, condition, h⟩ := exists_compiles made
  have made : Resolver.ofTable (t.visibleTo c.roles) d = .ok (r.restrict c.roles) :=
    ofTable_visibleTo_eq_ok h.written
  have described := Resolver.describes made
  refine ⟨_, _, h.effective, made, described.table, h.outputFields, fun f mem => ⟨?_, ?_⟩⟩
  · obtain ⟨item, hitem, selects⟩ := Checked.exists_mem_mapM h.selected mem
    refine ⟨item, ?_, Resolver.name_of_selectionOf selects, selects⟩
    rw [(Resolver.select_of_dataPlan h.data).1]
    exact List.mem_append_left _ hitem
  · rw [← described.agrees_iff (Resolver.mem_selectable.mp (Resolver.mem_chosenFields mem)).1, ← described.table]
    exact ⟨fun ⟨resolved, shaped⟩ => ⟨resolved, shaped⟩, fun agrees => ⟨agrees.resolved, agrees.shaped⟩⟩

/-- Orders with the number of their items, which has the name of a hidden column. -/
def tallied : Table where
  name := "orders"
  base := "orders"
  columns := [{ name := "id", type := .number }, { name := "items", hidden := true }]
  subqueries := [{ name := "items", mode := .count, table := "order_items" }]

/-- The number of items is selected, and its name finds the hidden column. -/
theorem outputs_agree_iff_tallied :
    tallied.validate none = .ok () ∧ ∃ compiled r f, tallied.compile .sqlite {} {} ⟨0⟩ = .ok compiled
      ∧ Resolver.ofTable tallied .sqlite = .ok r ∧ f ∈ r.chosenFields [] ∧ f.name = Bytes.ofString "items"
      ∧ ¬(r.resolve f.name = some f ∧ tallied.outputColumn? f.name = f.ownColumn?) := by
  obtain ⟨compiled, made⟩ : ∃ compiled, tallied.compile .sqlite {} {} ⟨0⟩ = .ok compiled := ⟨_, rfl⟩
  obtain ⟨e, r, he, hr, -, -, agree⟩ := outputs_agree_iff made
  have unrestricted : tallied.effective {} = .ok tallied := rfl
  cases unrestricted.symm.trans he
  obtain ⟨s, f, g, hs, chosen, declared, named, same, other⟩ : ∃ s f g, Resolver.ofTable tallied .sqlite = .ok s
      ∧ f ∈ s.chosenFields [] ∧ g ∈ s.declared ∧ f.name = Bytes.ofString "items" ∧ g.name = f.name
      ∧ g.source ≠ f.source :=
    ⟨_, _, _, rfl, .tail _ (.head _), .tail _ (.head _), rfl, rfl, nofun⟩
  cases hs.symm.trans hr
  refine ⟨rfl, compiled, r, f, made, hr, chosen, named, fun both => other ?_⟩
  rw [(agree f chosen).2.mp both g (List.mem_append_left _ declared) same]

end Table

end TableQuery

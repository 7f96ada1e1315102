import TableQuery.Proofs.Engine.Disclosure
import TableQuery.Proofs.Field.Reach
import TableQuery.Proofs.Response.OutputColumn
import TableQuery.Proofs.Response.Shape

/-!
# The rows of a walk

The statement of a walk selects whole rows of the recursive table, under the names of the database. Two places make
these names from a column's source. The statement takes what follows the first dot; the engine, which gives the
columns their own names again, takes the source as it is written. So they meet exactly at the sources that are written
without a table.

## What is proved

`Engine.walk_shows_iff`: a walk is answered exactly if the transforms of every row succeed, and then it shows a
visible column of the base table by its transforms from the value under its source. In a row without qualified names
this is the value at the column that the statement reads exactly if the source has no dot, or that value is null.
-/

namespace TableQuery

/-! ## The columns of a walk -/

/-- The names before the dot of a source by which a walk takes a column for one of the base table. -/
def Table.walkQualifiers (t : Table) : List Bytes := [TreeWalk.treeName, t.base]

/-- No name in a row has one of these qualifiers before it. -/
def Json.Unqualified (row : Json) (qualifiers : List Bytes) : Prop :=
  ∀ qualifier ∈ qualifiers, ∀ column, row.get? (qualifier ++ Ascii.dot :: column) = none

theorem Json.unqualified_record {members : List (Bytes × Json)} {qualifiers : List Bytes}
    (bare : ∀ key ∈ members.map Prod.fst, Ascii.dot ∉ key) : (Json.record members).Unqualified qualifiers := by
  intro qualifier _ column
  refine get?_record_of_not_mem fun mem => bare _ mem ?_
  exact List.mem_append_right _ List.mem_cons_self

/-- A visible column that is read from the base table, under a name that the walk does not take for itself. -/
structure TreeWalk.Carries (w : TreeWalk) (t : Table) (k : Column) : Prop where
  declared : k ∈ t.columns
  visible : k.hidden = false
  read : k.computed = false
  base : ∀ qualifier column, Bytes.cut Ascii.dot k.source = some (qualifier, column) → qualifier ∈ t.walkQualifiers
  free : k.name ∉ Engine.walkNames w

namespace Resolver

variable {r : Resolver} {t : Table} {d : Dialect} {w : TreeWalk} {k : Column} {row : Json}

/-- The source without its table is the source itself where it is written without one. -/
theorem bareSource_of_not_mem (bare : Ascii.dot ∉ k.source) : bareSource k = k.source := by
  unfold bareSource
  rw [Bytes.cut_eq_none.mpr bare]

/-- What a row without qualified names has under a source is what it has at the column, unless the source is
written with its table: then it has nothing. -/
theorem get?_source_eq_iff (carries : w.Carries t k) (unqualified : row.Unqualified t.walkQualifiers) :
    (row.get? k.source).getD .null = (row.get? (bareSource k)).getD .null
      ↔ Ascii.dot ∉ k.source ∨ (row.get? (bareSource k)).getD .null = .null := by
  by_cases bare : Ascii.dot ∉ k.source
  · rw [bareSource_of_not_mem bare]
    exact iff_of_true rfl (.inl bare)
  · obtain ⟨⟨qualifier, column⟩, parts⟩ := Option.ne_none_iff_exists'.mp (mt Bytes.cut_eq_none.mp bare)
    have absent := unqualified qualifier (carries.base _ _ parts) column
    rw [← (Bytes.cut_eq_some.mp parts).2] at absent
    rw [absent, Option.getD_none, or_iff_right bare, eq_comm]

section Describes

variable (hr : r.Describes TreeWalk.treeName t d) (carries : w.Carries t k)
include hr carries

/-- A column that a walk carries is a field of the base table. -/
theorem exists_field_of_carries :
    ∃ f ∈ r.declared, f.name = k.name ∧ f.source = .base ∧ f.origin = .column k := by
  have base : (Field.ofTableColumn d t.walkQualifiers TreeWalk.treeName k).source = .base := by
    unfold Field.ofTableColumn
    cases parts : Bytes.cut Ascii.dot k.source with
    | none => rfl
    | some pair =>
      obtain ⟨qualifier, column⟩ := pair
      exact if_pos (List.contains_iff_mem.mpr (carries.base _ _ parts))
  refine ⟨Field.ofColumn d t.walkQualifiers TreeWalk.treeName k, ?_, ofColumn_name .., ?_, Field.origin_ofColumn ..⟩
  · rw [(addFields_eq hr.declared).1]
    exact List.mem_map_of_mem carries.declared
  · unfold Field.ofColumn
    rw [if_neg (Bool.eq_false_iff.mp carries.read), base]

/-- The column that the statement reads for it is its source without the table. -/
theorem keyColumn_of_carries : r.keyColumn k.name = .ok (bareSource k) := by
  obtain ⟨f, mem, name, source, origin⟩ := exists_field_of_carries hr carries
  have read : f ∈ r.baseFields := by
    refine List.mem_filter.mpr ⟨mem, ?_⟩
    rw [source]
    rfl
  have found : r.baseColumn? k.name = some k :=
    baseColumn?_eq_some_iff.mpr ⟨f, name ▸ hr.resolve_of_mem_baseFields read, source, origin⟩
  unfold keyColumn
  rw [found]

/-- The response shapes its value by the column itself. -/
theorem outputColumn?_of_carries : t.outputColumn? k.name = some k := by
  obtain ⟨f, mem, name, -, origin⟩ := exists_field_of_carries hr carries
  rw [← name, hr.outputColumn?_of_mem_declared mem]
  unfold Field.ownColumn?
  rw [origin]

end Describes

end Resolver

/-! ## From a row of the database to one of the response -/

namespace Engine

variable {σ : Type} {e : Engine σ} {t : Table} {w : TreeWalk} {k : Column} {row : Json}

/-- The fields of the rows of a walk. -/
def walkFields (t : Table) (w : TreeWalk) : List Bytes := (walkColumns t).map Column.name ++ walkNames w

theorem mem_walkColumns_iff (carries : w.Carries t k) : k ∈ walkColumns t ↔ k.expression = none := by
  unfold walkColumns
  rw [List.mem_filter, and_iff_right carries.declared, carries.visible, carries.read]
  exact Option.isNone_iff_eq_none

/-- A column that the walk carries is among its fields, unless it has an expression. -/
theorem mem_walkFields_iff (distinct : (t.columns.map Column.name).Nodup) (carries : w.Carries t k) :
    k.name ∈ walkFields t w ↔ k.expression = none := by
  unfold walkFields
  rw [List.mem_append, or_iff_left carries.free, ← mem_walkColumns_iff carries]
  refine ⟨fun mem => ?_, List.mem_map_of_mem⟩
  obtain ⟨other, shown, same⟩ := List.mem_map.mp mem
  rwa [← List.inj_on_of_nodup_map distinct (List.mem_of_mem_filter shown) carries.declared same]

theorem keys_renameWalkRow (t : Table) (w : TreeWalk) (row : Json) :
    ((walkColumns t).map (fun c => (c.name, (row.get? c.source).getD .null))
      ++ (walkNames w).map fun name => (name, (row.get? name).getD .null)).map Prod.fst = walkFields t w := by
  unfold walkFields
  rw [List.map_append, List.map_map, List.map_map]
  exact congrArg _ (List.map_id _)

/-- The value of a column before its transforms is the one under its source. -/
theorem get?_renameWalkRow (distinct : (t.columns.map Column.name).Nodup) (carries : w.Carries t k) :
    (renameWalkRow t w row).get? k.name
      = if k.expression = none then some ((row.get? k.source).getD .null) else none := by
  unfold renameWalkRow
  split_ifs with plain
  · have shown : k ∈ walkColumns t := (mem_walkColumns_iff carries).mpr plain
    refine Json.get?_record_of_only (List.mem_append_left _ (List.mem_map_of_mem shown)) fun v held => ?_
    rcases List.mem_append.mp held with held | held
    · obtain ⟨other, kept, same⟩ := List.mem_map.mp held
      obtain ⟨name, rfl⟩ := Prod.mk.inj same
      rw [List.inj_on_of_nodup_map distinct (List.mem_of_mem_filter kept) carries.declared name]
    · obtain ⟨name, mem, same⟩ := List.mem_map.mp held
      exact absurd ((Prod.mk.inj same).1 ▸ mem) carries.free
  · refine Json.get?_record_of_not_mem ?_
    rw [keys_renameWalkRow, mem_walkFields_iff distinct carries]
    exact plain

/-! ## The run of a walk -/

variable {p : Params} {c : Context} {s : State σ} {statement : Fragment} {rows : List Json}

theorem run_checked {α : Type} (a : α) (s : State σ) : (checked (.ok a)).run s = (.ok a, s) := rfl

/-- Once the statement is made and the executor has given its rows, the rest is to shape them. -/
theorem run_queryTree (derived : e.table.effective c = .ok t) (walks : t.walk = some w)
    (made : e.table.compileTree e.executor.dialect p c = .ok statement)
    (found : (e.executor.execute statement s.database).1 = .ok rows) :
    (e.queryTree p c).run s
      = (e.shapeWalk t w rows, { s with database := (e.executor.execute statement s.database).2 }) := by
  have executed : (e.run statement).run s
      = (.ok rows, { s with database := (e.executor.execute statement s.database).2 }) := by
    rw [← found]
    rfl
  unfold queryTree
  rw [derived, made, run_bind, run_checked]
  dsimp only
  rw [run_bind, run_checked]
  dsimp only
  rw [run_bind, executed, walks]
  rfl

/-- Shaping the rows of a walk gives a response exactly if each member of each row can be made. -/
theorem succeeds_shapeWalk_iff (e : Engine σ) (t : Table) (w : TreeWalk) (rows : List Json) :
    Checked.Succeeds (e.shapeWalk t w rows) ↔ ∀ row ∈ rows, ∀ name ∈ walkFields t w,
      Checked.Succeeds (t.shapeMember e.transforms (renameWalkRow t w row) name) := by
  unfold shapeWalk Table.shape
  rw [Checked.succeeds_bind_pure, Checked.succeeds_mapM, List.forall_mem_map]
  refine forall₂_congr fun row _ => ?_
  unfold Table.shapeRow
  rw [Checked.succeeds_bind_pure, Checked.succeeds_mapM]
  rfl

/-- A response has one row for each that the executor gives, in which a column that the walk carries is shown by its
transforms, or is absent where the renamed row does not have it. -/
theorem forall₂_shapeWalk {response : Response} (distinct : (t.columns.map Column.name).Nodup)
    (column : t.outputColumn? k.name = some k) (carries : w.Carries t k)
    (shaped : e.shapeWalk t w rows = .ok response) :
    List.Forall₂ (fun row shown => k.ShownBy e.transforms (renameWalkRow t w row) shown) rows response.rows := by
  have each := Checked.mapM_eq_ok.mp (shape_eq_ok shaped).1
  rw [List.forall₂_map_left_iff] at each
  refine each.imp fun row shown made => ?_
  unfold Column.ShownBy
  rw [get?_renameWalkRow distinct carries]
  split_ifs with plain
  · obtain ⟨v, transformed, found⟩ :=
      Table.get?_of_shapeRow made column carries.visible ((mem_walkFields_iff distinct carries).mpr plain)
    rw [get?_renameWalkRow distinct carries, if_pos plain, Option.getD_some] at transformed
    rw [found]
    exact .some transformed
  · rw [Table.get?_of_shapeRow_of_not_mem made (mt (mem_walkFields_iff distinct carries).mp plain)]
    exact .none

/-! ## What a walk shows -/

/-- A walk whose statement is made, and for which the executor gives rows, is answered exactly if the transforms of
each row succeed. A column that the walk carries is then shown by its transforms from the value under its source, and
not at all if it has an expression. The statement reads the column without its table. In a row without qualified names
the value that is shown is the one at this column exactly if the source is written without a table, or the value is
null anyway. -/
theorem walk_shows_iff (made : e.table.compileTree e.executor.dialect p c = .ok statement)
    (found : (e.executor.execute statement s.database).1 = .ok rows) :
    ∃ t w r, e.table.effective c = .ok t ∧ t.walk = some w
      ∧ Resolver.ofTableAs TreeWalk.treeName t e.executor.dialect = .ok r
      ∧ ((∃ response s', Yields (e.queryTree p c) s response s') ↔ ∀ row ∈ rows, ∀ name ∈ walkFields t w,
          Checked.Succeeds (t.shapeMember e.transforms (renameWalkRow t w row) name))
      ∧ ∀ k, w.Carries t k → r.keyColumn k.name = .ok (Resolver.bareSource k)
        ∧ (∀ row, (renameWalkRow t w row).get? k.name
            = if k.expression = none then some ((row.get? k.source).getD .null) else none)
        ∧ (∀ row, row.Unqualified t.walkQualifiers →
            ((renameWalkRow t w row).get? k.name = some ((row.get? (Resolver.bareSource k)).getD .null)
              ↔ k.expression = none
                ∧ (Ascii.dot ∉ k.source ∨ (row.get? (Resolver.bareSource k)).getD .null = .null)))
        ∧ ∀ response s', Yields (e.queryTree p c) s response s' →
          List.Forall₂ (fun row shown => k.ShownBy e.transforms (renameWalkRow t w row) shown) rows response.rows := by
  have compiled := made
  unfold Table.compileTree at compiled
  obtain ⟨t, derived, compiled⟩ := Checked.bind_eq_ok.mp compiled
  obtain ⟨r, written, compiled⟩ := Checked.bind_eq_ok.mp compiled
  obtain ⟨scope, -, compiled⟩ := Checked.bind_eq_ok.mp compiled
  have hr := Resolver.describes written
  obtain ⟨w, -, -, -, walk, -⟩ := Resolver.walkStatement_eq_ok compiled
  have walks : t.walk = some w := hr.table ▸ Resolver.walk_of_requireWalk walk
  have distinct := hr.nodup_columns
  have run := run_queryTree derived walks made found
  refine ⟨t, w, r, derived, walks, written, ?_, fun k carries => ⟨Resolver.keyColumn_of_carries hr carries,
    fun row => get?_renameWalkRow distinct carries, fun row unqualified => ?_, fun response s' answer => ?_⟩⟩
  · rw [← succeeds_shapeWalk_iff]
    constructor
    · rintro ⟨response, s', answer⟩
      exact ⟨response, congrArg Prod.fst (run.symm.trans answer)⟩
    · rintro ⟨response, shaped⟩
      exact ⟨response, _, run.trans (by rw [shaped])⟩
  · rw [get?_renameWalkRow distinct carries, ← Resolver.get?_source_eq_iff carries unqualified]
    split_ifs with plain
    · rw [Option.some.injEq, and_iff_right plain]
    · exact iff_of_false nofun fun both => plain both.1
  · exact forall₂_shapeWalk distinct (Resolver.outputColumn?_of_carries hr carries) carries
      (congrArg Prod.fst (run.symm.trans answer))

/-- The walk from comments to the comments on them. -/
def thread : TreeWalk where
  parentKey := "parentId"
  childKey := "id"
  maxDepth := 3

/-- A comment's parent, with its table before the column of the database. -/
def parentId : Column where
  name := "parentId"
  field := "comments.parent_id"
  type := .number

/-- Comments, of which each but the first is on another one. -/
def comments : Table where
  name := "comments"
  base := "comments"
  columns := [{ name := "id", type := .number }, parentId]
  walk := some thread

/-- A comment on the first one, as the database has it. -/
def reply : Json := .record [("id", .int 2), ("parent_id", .int 1), ("depth", .int 1)]

/-- An engine for comments, over a database in which a walk finds one reply. -/
def commentsEngine : Engine Unit where
  table := comments
  executor := { dialect := .sqlite, execute := fun _ s => (.ok [reply], s) }
  transforms := .builtin

/-- The walk follows the parent of a reply, and shows null for it. -/
theorem walk_shows_iff_comments :
    comments.validate none = .ok () ∧ reply.get? (Resolver.bareSource parentId) = some (.int 1)
      ∧ (renameWalkRow comments thread reply).get? parentId.name ≠ some (.int 1)
      ∧ ∃ r response s' shown, Resolver.ofTableAs TreeWalk.treeName comments .sqlite = .ok r
        ∧ r.keyColumn parentId.name = .ok (Resolver.bareSource parentId)
        ∧ Yields (commentsEngine.queryTree {} {}) { database := () } response s'
        ∧ response.rows = [shown] ∧ shown.get? parentId.name = some .null := by
  obtain ⟨statement, made⟩ : ∃ statement, comments.compileTree .sqlite {} {} = .ok statement := ⟨_, rfl⟩
  obtain ⟨t, w, r, derived, walks, written, answered, shows'⟩ :=
    walk_shows_iff (e := commentsEngine) (s := { database := () }) made rfl
  have unrestricted : comments.effective {} = .ok comments := rfl
  cases unrestricted.symm.trans derived
  cases walks
  have carries : thread.Carries comments parentId :=
    { declared := .tail _ (.head _)
      visible := rfl
      read := rfl
      base := by
        rintro qualifier column ⟨⟩
        exact .tail _ (.head _)
      free := by decide }
  obtain ⟨response, s', answer⟩ := answered.mpr (by
    have fields : walkFields comments thread = [Bytes.ofString "id", parentId.name, thread.depthName] := rfl
    rw [List.forall_mem_singleton, fields, List.forall_mem_cons, List.forall_mem_cons, List.forall_mem_singleton]
    exact ⟨⟨_, rfl⟩, ⟨_, rfl⟩, ⟨_, rfl⟩⟩)
  obtain ⟨key, renamed, same, each⟩ := shows' _ carries
  have differs : (renameWalkRow comments thread reply).get? parentId.name ≠ some (.int 1) := by
    intro read
    have bare : reply.Unqualified comments.walkQualifiers := Json.unqualified_record (by decide)
    rcases ((same reply bare).mp read).2 with unwritten | null
    · exact unwritten (by decide)
    · cases null
  obtain ⟨shown, others, rel, none, rows⟩ := List.forall₂_cons_left_iff.mp (each response s' answer)
  cases none
  have plain : parentId.expression = none := rfl
  unfold Column.ShownBy at rel
  rw [renamed, if_pos plain] at rel
  refine ⟨rfl, rfl, differs, r, response, s', shown, written, key, answer, rows, ?_⟩
  cases found : shown.get? parentId.name with
  | none =>
    rw [found] at rel
    cases rel
  | some value =>
    rw [found] at rel
    cases rel with
    | some unchanged =>
      cases unchanged
      rfl

end Engine

end TableQuery

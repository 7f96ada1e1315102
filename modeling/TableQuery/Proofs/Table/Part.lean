import TableQuery.Proofs.Json.Read
import TableQuery.Table.Aggregation
import TableQuery.Table.Section
import TableQuery.Table.Join
import TableQuery.Table.Subquery

/-!
# Parts of a description read back

A part of a description is written in one form and may be read from several: a word alone, a list alone, or an object
without the members that have their usual values. Whatever it was read from, it is read back as it was written.

## What is proved

`X.ofJson_toJson`, for each part that holds no others of its kind: columns, conditions, filters, sort keys and the
sections. `Column.ofJson_toJson` alone has a hypothesis, which holds of a column that was read:
`Column.ofJson_toJson_of_ofJson`.
-/

namespace TableQuery

/-! ## Words -/

theorem ColumnType.read_name (t : ColumnType) : vocabulary.read t.name = .ok t := by
  cases t <;> rfl

theorem JoinType.read_name (t : JoinType) : vocabulary.read t.name = .ok t := by
  cases t <;> rfl

theorem FilterKind.read_name (k : FilterKind) : vocabulary.read k.name = .ok k := by
  cases k <;> rfl

theorem SortDirection.read_name (d : SortDirection) : vocabulary.read d.name = .ok d := by
  cases d <;> rfl

theorem AggregationType.read_name (t : AggregationType) : vocabulary.read t.name = .ok t := by
  cases t <;> rfl

theorem SubqueryMode.read_name (m : SubqueryMode) : vocabulary.read m.name = .ok m := by
  cases m <;> rfl

theorem Comparison.read_name (c : Comparison) : vocabulary.read c.name = .ok c := by
  cases c <;> rfl

theorem Operator.ofName?_name (op : Operator) : ofName? op.name = some op := by
  cases op <;> rfl

open Outcome Json

/-! ## Columns -/

namespace Column

/-- What is written of a column, by the names of the members. -/
def fields (c : Column) : List (Bytes × Option Json) :=
  [("name", some (.str c.name)), ("type", some (.str c.type.name)), ("hidden", some (.bool c.hidden)),
    ("sortable", some (.bool c.sortable)), ("filterable", some (.bool c.filterable)),
    ("field", if !c.field.isEmpty then some (.str c.field) else none),
    ("label", if !c.label.isEmpty then some (.str c.label) else none),
    ("computed", if c.computed then some (.bool true) else none),
    ("nullable", if !c.nullable then some (.bool false) else none),
    ("expression", c.expression.map fun e => .str e.sql),
    ("visible_to", if !c.visibleTo.isEmpty then some (.ofTexts c.visibleTo) else none),
    ("options", if !c.options.isEmpty then some (.arr c.options) else none),
    ("db_transform", if !c.dbTransforms.isEmpty then some (.ofTexts c.dbTransforms) else none),
    ("js_transform", if !c.valueTransforms.isEmpty then some (.ofTexts c.valueTransforms) else none)]

theorem tells (c : Column) : c.toJson.Tells c.fields := by
  refine tells_recordOf ?_ ?_
  · unfold present fields
    rw [List.flatMap_def]
    simp only [memberIf_eq, member?_eq, List.map_cons, List.map_nil]
    rfl
  · simp only [fields, List.map_cons, List.map_nil]
    decide

/-- A column whose expression makes it computed is read back as it was written. -/
theorem ofJson_toJson (c : Column) (marked : c.expression.isSome = true → c.computed = true) :
    ofJson c.toJson = .ok c := by
  have told := c.tells
  unfold ofJson
  refine bind_reading (told.textAt "name" c.name rfl) ?_
  refine bind_reading (told.textOr_nil "field" c.field rfl) ?_
  refine bind_reading (told.textOr "type" c.type.name rfl _) ?_
  refine bind_checked c.type.read_name ?_
  refine bind_reading (told.textOr_nil "label" c.label rfl) ?_
  refine bind_reading (told.boolOr "hidden" c.hidden rfl _) ?_
  refine bind_reading (told.boolOr "sortable" c.sortable rfl _) ?_
  refine bind_reading (told.boolOr "filterable" c.filterable rfl _) ?_
  refine bind_reading (told.boolOr_false "computed" c.computed rfl) ?_
  refine bind_reading (told.boolOr_true "nullable" c.nullable rfl) ?_
  rw [told.get? "expression" _ rfl, told.get? "options" _ rfl]
  obtain ⟨name, field, type, label, hidden, sortable, filterable, computed, nullable, expression, visibleTo, options,
    dbTransforms, valueTransforms⟩ := c
  have kept : (computed || expression.isSome) = computed := by
    cases expression with
    | none => exact Bool.or_false computed
    | some e => exact (Bool.or_true computed).trans (marked rfl).symm
  -- with an expression or without one, and with options or without, the rest is read in the same way
  cases expression
  case' some e => refine bind_reading (a := e.sql) rfl ?_
  all_goals
    refine bind_reading (told.textListOr_nil "visible_to" visibleTo rfl) ?_
    cases options
    case' cons option options => refine bind_reading (a := option :: options) rfl ?_
    all_goals
      refine bind_reading (told.textListOr_nil "db_transform" dbTransforms rfl) ?_
      refine bind_reading (told.textListOr_nil "js_transform" valueTransforms rfl) ?_
      rw [kept]
      rfl

theorem computed_of_ofJson (j : Json) :
    Checked.Ensures (ofJson j) fun c => c.expression.isSome = true → c.computed = true := by
  unfold ofJson
  iterate 10 refine Checked.ensures_bind fun _ _ => ?_
  -- with or without an expression and options, the column is made in the same way
  cases j.get? "expression"
  all_goals
    cases j.get? "options"
    all_goals
      repeat refine Checked.ensures_bind fun _ _ => ?_
      exact Checked.ensures_pure fun given => Bool.or_eq_true_iff.mpr (.inr given)

/-- A column that was read is read back as it was written: its expression made it computed. -/
theorem ofJson_toJson_of_ofJson {j : Json} {c : Column} (read : ofJson j = .ok c) : ofJson c.toJson = .ok c :=
  ofJson_toJson c (computed_of_ofJson j c read)

end Column

/-! ## Conditions and filters -/

/-- A condition is read from the members for its field, its operator and its value, whatever else there is. -/
theorem Condition.ofJson_of_members (author : Author) {j : Json} {c : Condition} (field : j.textAt "field" = .ok c.field)
    (op : j.get? "op" = some (.str c.op.name)) (value : j.getOr "value" .null = .ok c.value) :
    ofJson author j = .ok c := by
  unfold ofJson
  refine bind_reading field ?_
  rw [op]
  refine bind_reading (a := c.op.name) rfl ?_
  dsimp only
  rw [c.op.ofName?_name]
  exact bind_reading value rfl

theorem Condition.ofJson_toJson (author : Author) (c : Condition) : ofJson author c.toJson = .ok c := by
  have told : c.toJson.Tells _ := tells_record (by simp only [List.map_cons, List.map_nil]; decide)
  exact ofJson_of_members author (told.textAt "field" c.field rfl) (told.get? "op" _ rfl)
    (told.getOr "value" (some c.value) rfl .null)

namespace ConfiguredFilter

/-- What is written of a filter, by the names of the members. -/
def fields (f : ConfiguredFilter) : List (Bytes × Option Json) :=
  [("field", some (.str f.condition.field)), ("op", some (.str f.condition.op.name)), ("type", some (.str f.kind.name)),
    ("value", if !f.condition.value.isNull then some f.condition.value else none),
    ("label", if !f.label.isEmpty then some (.str f.label) else none)]

theorem tells (f : ConfiguredFilter) : f.toJson.Tells f.fields := by
  refine tells_recordOf ?_ ?_
  · unfold present fields
    rw [List.flatMap_def]
    simp only [memberIf_eq, List.map_cons, List.map_nil]
    rfl
  · simp only [fields, List.map_cons, List.map_nil]
    decide

theorem ofJson_toJson (f : ConfiguredFilter) : ofJson f.toJson = .ok f := by
  have told := f.tells
  have value : f.toJson.getOr "value" .null = .ok f.condition.value := by
    refine (told.getOr "value" _ rfl .null).trans ?_
    cases f.condition.value <;> rfl
  unfold ofJson
  refine Checked.bind_of_ok (a := f.condition) ?_ ?_
  · exact Condition.ofJson_of_members .description (told.textAt "field" f.condition.field rfl) (told.get? "op" _ rfl)
      value
  refine bind_reading (told.textOr_nil "label" f.label rfl) ?_
  refine bind_reading (told.textOr "type" f.kind.name rfl _) ?_
  exact bind_checked f.kind.read_name rfl

end ConfiguredFilter

/-! ## Search, order and pages -/

theorem Search.ofJson_toJson (s : Search) : ofJson s.toJson = .ok s := by
  have told : s.toJson.Tells _ := tells_record (by simp only [List.map_cons, List.map_nil]; decide)
  have noArray : s.toJson.isArr = false := rfl
  unfold ofJson
  rw [noArray, if_neg Bool.false_ne_true]
  refine Checked.bind_of_ok (told.textListOr "fields" s.fields rfl) ?_
  refine Checked.bind_of_ok (told.boolOr "enabled" s.enabled rfl _) ?_
  refine Checked.bind_of_ok (told.boolOr "full_text" s.fullText rfl _) ?_
  exact Checked.bind_of_ok (told.textOr "language" s.language rfl _) rfl

theorem SortKey.ofJson_toJson (k : SortKey) : ofJson k.toJson = .ok k := by
  have told : k.toJson.Tells _ := tells_record (by simp only [List.map_cons, List.map_nil]; decide)
  change (liftM (k.toJson.textAt "field") >>= fun field => _ : Outcome SortKey) = _
  refine bind_reading (told.textAt "field" k.field rfl) ?_
  refine bind_reading (told.textOr "direction" k.direction.name rfl _) ?_
  exact bind_checked k.direction.read_name rfl

theorem Pagination.ofJson_toJson (p : Pagination) : ofJson p.toJson = .ok p := by
  have told : p.toJson.Tells _ := tells_record (by simp only [List.map_cons, List.map_nil]; decide)
  unfold ofJson
  refine Checked.bind_of_ok (told.int64Or "default_page_size" p.defaultPageSize rfl _) ?_
  refine Checked.bind_of_ok (told.int64Or "max_page_size" p.maxPageSize rfl _) ?_
  refine Checked.bind_of_ok (told.boolOr "enabled" p.enabled rfl _) ?_
  exact Checked.bind_of_ok (told.textOr "cursor_key" p.cursorKey rfl _) rfl

/-! ## Aggregates and groups -/

theorem Aggregation.ofJson_toJson (a : Aggregation) : ofJson a.toJson = .ok a := by
  have told : a.toJson.Tells _ := tells_record (by simp only [List.map_cons, List.map_nil]; decide)
  unfold ofJson
  refine bind_reading (told.textAt "alias" a.name rfl) ?_
  refine bind_reading (told.textAt "type" a.type.name rfl) ?_
  refine bind_checked a.type.read_name ?_
  exact bind_reading (told.textAt "field" a.field rfl) rfl

theorem HavingCondition.ofJson_toJson (h : HavingCondition) : ofJson h.toJson = .ok h := by
  have told : h.toJson.Tells _ := tells_record (by simp only [List.map_cons, List.map_nil]; decide)
  unfold ofJson
  refine bind_reading (told.textAt "alias" h.name rfl) ?_
  refine bind_reading (told.textOr "op" h.op.name rfl _) ?_
  refine bind_checked h.op.read_name ?_
  exact bind_reading (told.member "value" h.value rfl) rfl

theorem GroupBy.ofJson_toJson (g : GroupBy) : ofJson g.toJson = .ok g := by
  have told : g.toJson.Tells _ := tells_record (by simp only [List.map_cons, List.map_nil]; decide)
  unfold ofJson
  refine bind_reading (told.textListOr "fields" g.fields rfl) ?_
  refine bind_reading (told.elemsOr "having" (g.having.map HavingCondition.toJson) rfl) ?_
  exact Checked.bind_of_ok (Checked.mapM_of_forall fun h _ => h.ofJson_toJson) rfl

/-! ## Walks down a tree -/

namespace TreeWalk

/-- What is written of a walk, by the names of the members. -/
def fields (w : TreeWalk) : List (Bytes × Option Json) :=
  [("parent_key", some (.str w.parentKey)), ("child_key", some (.str w.childKey)),
    ("max_depth", some (.int w.maxDepth.toInt)), ("depth_alias", some (.str w.depthName)),
    ("start_with", w.startWith.map Condition.toJson),
    ("path_alias", if !w.pathName.isEmpty then some (.str w.pathName) else none)]

theorem tells (w : TreeWalk) : w.toJson.Tells w.fields := by
  refine tells_recordOf ?_ ?_
  · unfold present fields
    rw [List.flatMap_def]
    simp only [memberIf_eq, member?_eq, List.map_cons, List.map_nil]
    rfl
  · simp only [fields, List.map_cons, List.map_nil]
    decide

theorem ofJson_toJson (table : Bytes) (w : TreeWalk) : ofJson table w.toJson = .ok w := by
  have told := w.tells
  unfold ofJson
  refine bind_reading (told.textAt "parent_key" w.parentKey rfl) ?_
  refine bind_reading (told.textAt "child_key" w.childKey rfl) ?_
  rw [told.get? "max_depth" _ rfl, told.get? "start_with" _ rfl]
  refine bind_reading (congrArg Except.ok (Int32.ofInt_toInt w.maxDepth)) ?_
  obtain ⟨parentKey, childKey, maxDepth, startWith, depthName, pathName⟩ := w
  -- with a start or without one, the rest is read in the same way
  cases startWith
  case' some c => refine Checked.bind_of_ok (congrArg (some <$> ·) (c.ofJson_toJson .description)) ?_
  all_goals
    refine bind_reading (told.textOr "depth_alias" depthName rfl _) ?_
    exact bind_reading (told.textOr_nil "path_alias" pathName rfl) rfl

end TreeWalk

/-! ## Scope, caching and access -/

theorem ScopeField.ofJson_toJson (usual s : ScopeField) : ofJson usual s.toJson = .ok s := by
  have told : s.toJson.Tells _ := tells_record (by simp only [List.map_cons, List.map_nil]; decide)
  change (s.toJson.boolOr "enabled" true >>= fun enabled => _ : Json.Reading ScopeField) = _
  refine Checked.bind_of_ok (told.boolOr "enabled" s.enabled rfl _) ?_
  exact Checked.bind_of_ok (told.textOr "field" s.field rfl _) rfl

theorem CachePolicy.ofJson_toJson (c : CachePolicy) : ofJson c.toJson = .ok c := by
  have told : c.toJson.Tells _ := tells_record (by simp only [List.map_cons, List.map_nil]; decide)
  unfold ofJson
  refine Checked.bind_of_ok (told.boolOr "enabled" c.enabled rfl _) ?_
  refine Checked.bind_of_ok (told.int32Or "ttl" c.ttl rfl _) ?_
  exact Checked.bind_of_ok (told.int32Or "stale_while_revalidate" c.staleWhileRevalidate rfl _) rfl

theorem AccessRule.ofJson_toJson (a : AccessRule) : ofJson a.toJson = .ok a := by
  have told : a.toJson.Tells _ := tells_record (by simp only [List.map_cons, List.map_nil]; decide)
  unfold ofJson
  refine Checked.bind_of_ok (told.textListOr "roles" a.roles rfl) ?_
  exact Checked.bind_of_ok (told.textListOr "permissions" a.permissions rfl) rfl

end TableQuery

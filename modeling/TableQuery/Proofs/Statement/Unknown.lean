import TableQuery.Proofs.Field.Shadow
import TableQuery.Proofs.Sql.Nesting
import TableQuery.Proofs.Statement.Selection

/-!
# Names that stand for nothing

A request may name what the description does not have. Such a name is dropped from the filters before its value
is looked at, it leaves no trace in a group of a filter tree, and neither the selection of all fields nor the
description's own order is given up for it. So it cannot be told from the answer, nor from the fault of a request
that is refused, whether a request had it.

## What is proved

`Table.unknown_inert`: a request to which such a name was added, in any of its parts and however often, has the
answer and the count that it has without. `Params.Gains` says where a name may be added, `FilterTree.Gains` where
in the trees.
-/

namespace TableQuery

/-! ## Adding a name -/

/-- A leaf on a name is put in somewhere among some trees, or in a group of one of them at any depth. -/
inductive FilterTree.Gains (name : Bytes) : List FilterTree → List FilterTree → Prop where
  | leaf (op : Operator) (value : Json) (trees : List FilterTree) :
      Gains name trees (.leaf { field := name, op, value } :: trees)
  | inGroup (op : LogicalOp) {children children' : List FilterTree} (trees : List FilterTree)
      (gains : Gains name children children') :
      Gains name (.group op children :: trees) (.group op children' :: trees)
  | after (tree : FilterTree) {trees trees' : List FilterTree} (gains : Gains name trees trees') :
      Gains name (tree :: trees) (tree :: trees')

/-- A name is added somewhere in a request: to the filters or to the filter trees with an operator and a value, to
the selection, or to the order. -/
inductive Params.Gains (name : Bytes) (p : Params) : Params → Prop where
  | filter (before after : List (Bytes × FilterParam)) (f : FilterParam) (cut : p.filters = before ++ after) :
      Gains name p { p with filters := before ++ (name, f) :: after }
  | filterGroups {trees : List FilterTree} (gains : FilterTree.Gains name p.filterGroups trees) :
      Gains name p { p with filterGroups := trees }
  | select (before after : List Bytes) (cut : p.select = before ++ after) :
      Gains name p { p with select := before ++ name :: after }
  | sort (before after : List SortKey) (direction : SortDirection) (cut : p.sort = before ++ after) :
      Gains name p { p with sort := before ++ { field := name, direction } :: after }

/-! ## Parts without text -/

/-- A step that makes no text is not seen in what a list of steps makes, nor in the fault of the first that fails. -/
theorem Checked.map_present_mapM {α : Type} {step : α → Checked Fragment} {a : α} (nothing : step a = .ok .empty)
    (before after : List α) :
    ((before ++ a :: after).mapM step).map Fragment.present = ((before ++ after).mapM step).map Fragment.present := by
  rw [List.mapM_append, List.mapM_append, List.mapM_cons, nothing]
  cases before.mapM step with
  | error fault => rfl
  | ok first =>
    cases after.mapM step with
    | error fault => rfl
    | ok second => exact congrArg Except.ok (Fragment.present_insert_empty first second)

/-- Steps whose results have the same text in them are put together alike, and fail alike. -/
theorem Checked.map_combine_of_present {op : Bytes} {kind wraps : Connective} {x y : Checked (List Fragment)}
    (same : x.map Fragment.present = y.map Fragment.present) :
    x.map (Fragment.combine op kind wraps) = y.map (Fragment.combine op kind wraps) := by
  cases x with
  | error fault =>
    cases y with
    | error fault' =>
      cases same
      rfl
    | ok parts => cases same
  | ok parts =>
    cases y with
    | error fault => cases same
    | ok parts' => exact congrArg Except.ok (Fragment.combine_of_present (Except.ok.inj same))

/-! ## Conditions -/

namespace FilterTree

variable {name : Bytes} {toSql : Condition → Checked Fragment}

theorem toSql_group (op : LogicalOp) (children : List FilterTree) :
    (group op children).toSql toSql = (listToSql toSql children).map (match op with
      | .and => Fragment.all
      | .or => Fragment.any) := by
  rw [FilterTree.toSql]
  cases listToSql toSql children <;> cases op <;> rfl

theorem map_present_listToSql_cons (tree : FilterTree) (trees : List FilterTree) :
    (listToSql toSql (tree :: trees)).map Fragment.present = (do
      let part ← tree.toSql toSql
      ((listToSql toSql trees).map Fragment.present).map (Fragment.present [part] ++ ·)) := by
  rw [listToSql]
  cases tree.toSql toSql with
  | error fault => rfl
  | ok part =>
    cases listToSql toSql trees with
    | error fault => rfl
    | ok parts => exact congrArg Except.ok (List.filter_append [part] parts)

/-- A leaf that makes no text is not seen in the conditions of the trees that it was put in. -/
theorem Gains.map_present_listToSql (nothing : ∀ op value, toSql { field := name, op, value } = .ok .empty)
    {trees trees' : List FilterTree} (h : Gains name trees trees') :
    (listToSql toSql trees').map Fragment.present = (listToSql toSql trees).map Fragment.present := by
  induction h with
  | leaf op value trees =>
    rw [map_present_listToSql_cons, FilterTree.toSql, nothing]
    cases listToSql toSql trees <;> rfl
  | @inGroup op children children' trees _ ih =>
    have group : (group op children').toSql toSql = (FilterTree.group op children).toSql toSql := by
      rw [toSql_group, toSql_group]
      cases op with
      | and => exact Checked.map_combine_of_present ih
      | or => exact Checked.map_combine_of_present ih
    rw [map_present_listToSql_cons, map_present_listToSql_cons, group]
  | after tree _ ih => rw [map_present_listToSql_cons, map_present_listToSql_cons, ih]

end FilterTree

namespace Resolver

variable {r : Resolver} {name : Bytes} {p p' : Params}

section Unknown

variable (unknown : r.resolve name = none)
include unknown

theorem ofRequest_eq_empty (limits : Limits) (day : Day) (op : Operator) (value : Json) :
    Condition.ofRequest r limits day { field := name, op, value } = .ok .empty := by
  unfold Condition.ofRequest
  rw [unknown]

/-- No field that look-up finds by its bare name has a name that stands for nothing. -/
theorem name_ne_of_resolve_eq_none {f : Field} (mem : f ∈ r.fields) : f.name ≠ name := by
  rintro rfl
  unfold resolve at unknown
  rw [Option.or_eq_none_iff] at unknown
  have plain := unknown.1
  simp only [fields, List.mem_append] at mem
  rcases mem with (mem | mem) | mem
  · obtain ⟨g, found⟩ := Describes.exists_resolvePlain_of_mem_declared mem
    rw [plain] at found
    cases found
  · unfold resolvePlain at plain
    simp only [Option.or_eq_none_iff, find?_eq_none] at plain
    exact plain.2.1 f mem rfl
  · unfold resolvePlain at plain
    simp only [Option.or_eq_none_iff, find?_eq_none] at plain
    exact plain.2.2.2 f mem rfl

theorem requestFilters_insert (limits : Limits) (day : Day) (before after : List (Bytes × FilterParam))
    (f : FilterParam) :
    r.requestFilters limits day (before ++ (name, f) :: after) = r.requestFilters limits day (before ++ after) := by
  have nothing := ofRequest_eq_empty unknown limits day f.op f.value
  exact Checked.map_combine_of_present (Checked.map_present_mapM (a := (name, f)) nothing before after)

theorem requestGroups_of_gains (limits : Limits) (day : Day) {trees trees' : List FilterTree}
    (gains : FilterTree.Gains name trees trees') :
    r.requestGroups limits day trees' = r.requestGroups limits day trees :=
  Checked.map_combine_of_present (gains.map_present_listToSql (ofRequest_eq_empty unknown limits day))

/-- The selection of all fields and the added `id` depend on the known names only. -/
theorem chosenFields_insert (before after : List Bytes) :
    r.chosenFields (before ++ name :: after) = r.chosenFields (before ++ after) := by
  refine chosenFields_congr fun f mem => ?_
  have other : f.name ≠ name := name_ne_of_resolve_eq_none unknown (List.mem_of_mem_filter mem)
  simp [other]

theorem lenientOrder_insert (before after : List SortKey) (direction : SortDirection) :
    r.lenientOrder (before ++ { field := name, direction } :: after) = r.lenientOrder (before ++ after) := by
  have dropped : r.lenientTerm { field := name, direction } = none := by
    unfold lenientTerm
    rw [unknown]
    rfl
  unfold lenientOrder
  rw [List.filterMap_append, List.filterMap_append, List.filterMap_cons_none dropped]

theorem condition_of_gains (gains : p.Gains name p') (c : Context) (day : Day) :
    r.condition p' c day = r.condition p c day := by
  cases gains with
  | filter before after f cut =>
    unfold condition
    dsimp only
    rw [cut, requestFilters_insert unknown]
  | filterGroups gains =>
    unfold condition
    dsimp only
    simp only [requestGroups_of_gains unknown _ _ gains]
  | select => rfl
  | sort => rfl

theorem chosenFields_of_gains (gains : p.Gains name p') : r.chosenFields p'.select = r.chosenFields p.select := by
  cases gains with
  | filter => rfl
  | filterGroups => rfl
  | select before after cut =>
    rw [cut]
    exact chosenFields_insert unknown before after
  | sort => rfl

theorem lenientOrder_of_gains (gains : p.Gains name p') : r.lenientOrder p'.sort = r.lenientOrder p.sort := by
  cases gains with
  | filter => rfl
  | filterGroups => rfl
  | select => rfl
  | sort before after direction cut =>
    rw [cut]
    exact lenientOrder_insert unknown before after direction

theorem dataPlan_of_gains (gains : p.Gains name p') (numbered : p.cursor = none) (select : List SelectItem)
    (condition : Fragment) : r.dataPlan p' select condition = r.dataPlan p select condition := by
  have order := lenientOrder_of_gains unknown gains
  have same : p'.cursor = p.cursor ∧ p'.page = p.page ∧ p'.pageSize = p.pageSize := by
    cases gains <;> exact ⟨rfl, rfl, rfl⟩
  obtain ⟨cursor, page, pageSize⟩ := same
  unfold dataPlan
  rw [cursor, numbered, page, pageSize, order]

end Unknown

end Resolver

/-! ## Requests -/

namespace Table

variable {t : Table} {d : Dialect} {p p' : Params} {c : Context} {clock : Instant} {name : Bytes}

/-- A name that look-up does not find among the fields that the caller gets. -/
def IsUnknown (t : Table) (d : Dialect) (c : Context) (name : Bytes) : Prop :=
  ∀ e r, t.effective c = .ok e → Resolver.ofTable e d = .ok r → r.resolve name = none

theorem compile_of_gains (unknown : t.IsUnknown d c name) (numbered : p.cursor = none) (gains : p.Gains name p') :
    t.compile d p' c clock = t.compile d p c clock := by
  refine compile_congr fun e r he hr => ?_
  have unknown := unknown e r he hr
  exact ⟨Resolver.condition_of_gains unknown gains c, Resolver.chosenFields_of_gains unknown gains,
    Resolver.dataPlan_of_gains unknown gains numbered⟩

theorem compileCount_of_gains (unknown : t.IsUnknown d c name) (gains : p.Gains name p') :
    t.compileCount d p' c clock = t.compileCount d p c clock := by
  unfold compileCount
  cases he : t.effective c with
  | error fault => rfl
  | ok e =>
    cases hr : Resolver.ofTable e d with
    | error fault =>
      dsimp only [bind, Except.bind]
      rw [hr]
    | ok r =>
      dsimp only [bind, Except.bind]
      rw [hr]
      dsimp only
      rw [Resolver.condition_of_gains (unknown e r he hr) gains]

/-- A name that stands for nothing changes nothing. A request by page number to which it was added, in the filters or
anywhere in the filter trees with any operator and value, in the selection or in the order, and however often, is
answered and counted as it was without; a request that is refused is refused with the same fault. -/
theorem unknown_inert (unknown : t.IsUnknown d c name) (numbered : p.cursor = none)
    (gains : Relation.ReflTransGen (Params.Gains name) p p') :
    t.compile d p' c clock = t.compile d p c clock ∧ t.compileCount d p' c clock = t.compileCount d p c clock := by
  have kept {q q' : Params} (gains : q.Gains name q') : q'.cursor = q.cursor := by
    cases gains <;> rfl
  suffices p'.cursor = none ∧ t.compile d p' c clock = t.compile d p c clock
      ∧ t.compileCount d p' c clock = t.compileCount d p c clock from this.2
  induction gains with
  | refl => exact ⟨numbered, rfl, rfl⟩
  | tail _ gains ih =>
    obtain ⟨numbered, answer, count⟩ := ih
    refine ⟨(kept gains).trans numbered, ?_, ?_⟩
    · rw [compile_of_gains unknown numbered gains, answer]
    · rw [compileCount_of_gains unknown gains, count]

/-- A table of goods with an order of its own. -/
def goods : Table where
  name := "goods"
  base := "goods"
  columns := [{ name := "id", type := .number }, { name := "name" }, { name := "price", type := .number }]
  defaultSort := [{ field := "name" }]

/-- A request for what is cheap or has no name. -/
def cheap : Params where
  filterGroups :=
    [.group .or [.leaf { field := "price", op := .lt, value := .int 5 }, .leaf { field := "name", op := .isNull }]]

/-- The same request with a color in every part of it, compared with a value that no operator there takes. -/
def cheapAndRed : Params where
  filters := [("color", { op := .between, value := .str "red" })]
  filterGroups :=
    [.group .or [.leaf { field := "price", op := .lt, value := .int 5 },
      .leaf { field := "color", op := .isIn, value := .str "red" }, .leaf { field := "name", op := .isNull }]]
  sort := [{ field := "color", direction := .desc }]
  select := ["color"]

/-- The goods have no color. The request that asks for it everywhere gets all fields in the usual order. -/
theorem unknown_inert_goods :
    goods.IsUnknown .sqlite {} "color" ∧ Relation.ReflTransGen (Params.Gains "color") cheap cheapAndRed
      ∧ (∃ answer, goods.compile .sqlite cheap {} ⟨0⟩ = .ok answer)
      ∧ goods.compile .sqlite cheapAndRed {} ⟨0⟩ = goods.compile .sqlite cheap {} ⟨0⟩
      ∧ goods.compileCount .sqlite cheapAndRed {} ⟨0⟩ = goods.compileCount .sqlite cheap {} ⟨0⟩ := by
  have unknown : goods.IsUnknown .sqlite {} "color" := by
    intro e r he hr
    cases he
    cases hr
    rfl
  have gains : Relation.ReflTransGen (Params.Gains "color") cheap cheapAndRed := by
    refine .head (.filter [] [] { op := .between, value := .str "red" } rfl) ?_
    refine .head (.filterGroups (.inGroup .or [] (.after _ (.leaf .isIn (.str "red") _)))) ?_
    refine .head (.select [] [] rfl) ?_
    exact .single (.sort [] [] .desc rfl)
  exact ⟨unknown, gains, ⟨_, rfl⟩, unknown_inert unknown rfl gains⟩

end Table

end TableQuery

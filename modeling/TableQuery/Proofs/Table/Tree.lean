import TableQuery.Proofs.Table.Part

/-!
# Trees of a description read back

Filter trees, predicates and joins are read down to any depth. A tree is read back by induction on it, its children as
a list: what is written of a group is told from what is written of a leaf by its only member.

## What is proved

`FilterTree.ofJson_toJson`, `Predicate.ofJson_toJson`, `Subquery.ofJson_toJson`: these are read back as they were
written.
`Join.ofJson_toJson_of_ofJson`: a join that was read is read back as it was written, and so is all that hangs on it.
-/

namespace TableQuery

open Json Outcome

/-! ## Filter trees -/

namespace FilterTree

theorem ofJson_eq (author : Author) (j : Json) : ofJson author j =
    if !j.isObj then (author.notAnObject j).raise
    else match j.get? "and" with
      | some parts => do return .group .and (← parts.elems.mapM (ofJson author))
      | none =>
        match j.get? "or" with
        | some parts => do return .group .or (← parts.elems.mapM (ofJson author))
        | none => do return .leaf (← Condition.ofJson author j) := by
  rw [ofJson]
  simp only [List.mapM_subtype, List.unattach_attach]
  cases j.get? "and" with
  | some parts => rfl
  | none => cases j.get? "or" <;> rfl

mutual

theorem ofJson_toJson (author : Author) (t : FilterTree) : ofJson author t.toJson = .ok t := by
  match t with
  | leaf c =>
    rw [toJson, ofJson_eq]
    exact Checked.bind_of_ok (c.ofJson_toJson author) rfl
  | group .and children =>
    rw [toJson, ofJson_eq]
    exact Checked.bind_of_ok (mapM_ofJson_listToJson author children) rfl
  | group .or children =>
    rw [toJson, ofJson_eq]
    exact Checked.bind_of_ok (mapM_ofJson_listToJson author children) rfl

theorem mapM_ofJson_listToJson (author : Author) (ts : List FilterTree) :
    (listToJson ts).mapM (ofJson author) = .ok ts := by
  match ts with
  | [] => rfl
  | t :: ts =>
    rw [listToJson, List.mapM_cons]
    exact Checked.bind_of_ok (ofJson_toJson author t) (Checked.bind_of_ok (mapM_ofJson_listToJson author ts) rfl)

end

end FilterTree

/-! ## Subqueries -/

theorem Operand.ofJson_toJson (o : Operand) : ofJson o.toJson = .ok o := by
  cases o <;> rfl

theorem Correlation.ofJson_toJson (c : Correlation) : ofJson c.toJson = .ok c := by
  have told : c.toJson.Tells _ := tells_record (by simp only [List.map_cons, List.map_nil]; decide)
  unfold ofJson
  refine bind_reading (told.member "left" c.left.toJson rfl) ?_
  refine Checked.bind_of_ok c.left.ofJson_toJson ?_
  refine bind_reading (told.textOr "op" c.op.name rfl _) ?_
  refine bind_checked c.op.read_name ?_
  refine bind_reading (told.member "right" c.right.toJson rfl) ?_
  exact Checked.bind_of_ok c.right.ofJson_toJson rfl

namespace Predicate

theorem ofJson_eq (j : Json) : ofJson j =
    match j.get? "and" with
    | some parts => do return .all (← parts.elems.mapM ofJson)
    | none =>
      match j.get? "or" with
      | some parts => do return .any (← parts.elems.mapM ofJson)
      | none =>
        match j.get? "not" with
        | some child => do return .not (← ofJson child)
        | none => do return .compare (← Correlation.ofJson j) := by
  rw [ofJson]
  simp only [List.mapM_subtype, List.unattach_attach]
  cases j.get? "and" with
  | some parts => rfl
  | none =>
    cases j.get? "or" with
    | some parts => rfl
    | none => cases j.get? "not" <;> rfl

mutual

theorem ofJson_toJson (p : Predicate) : ofJson p.toJson = .ok p := by
  match p with
  | compare c =>
    rw [toJson, ofJson_eq]
    exact Checked.bind_of_ok c.ofJson_toJson rfl
  | all children =>
    rw [toJson, ofJson_eq]
    exact Checked.bind_of_ok (mapM_ofJson_listToJson children) rfl
  | any children =>
    rw [toJson, ofJson_eq]
    exact Checked.bind_of_ok (mapM_ofJson_listToJson children) rfl
  | not child =>
    rw [toJson, ofJson_eq]
    exact Checked.bind_of_ok (ofJson_toJson child) rfl

theorem mapM_ofJson_listToJson (ps : List Predicate) : (listToJson ps).mapM ofJson = .ok ps := by
  match ps with
  | [] => rfl
  | p :: ps =>
    rw [listToJson, List.mapM_cons]
    exact Checked.bind_of_ok (ofJson_toJson p) (Checked.bind_of_ok (mapM_ofJson_listToJson ps) rfl)

end

end Predicate

namespace Subquery

/-- What is written of a subquery, by the names of the members. -/
def fields (s : Subquery) : List (Bytes × Option Json) :=
  [("alias", some (.str s.name)), ("table", some (.str s.table)), ("mode", some (.str s.mode.name)),
    ("where", s.predicate.map Predicate.toJson),
    ("conditions", listOf Correlation.toJson s.conditions),
    ("filter", s.filter.map fun f => .str f.sql)]

theorem tells (s : Subquery) : s.toJson.Tells s.fields := by
  refine tells_recordOf ?_ ?_
  · unfold present fields
    rw [List.flatMap_def]
    simp only [memberIf_eq, member?_eq, List.map_cons, List.map_nil]
    rfl
  · simp only [fields, List.map_cons, List.map_nil]
    decide

theorem ofJson_toJson (s : Subquery) : ofJson s.toJson = .ok s := by
  have told := s.tells
  have conditions : (s.conditions.map Correlation.toJson).mapM Correlation.ofJson = .ok s.conditions :=
    Checked.mapM_of_forall fun c _ => c.ofJson_toJson
  unfold ofJson
  refine bind_reading (told.textAt "alias" s.name rfl) ?_
  refine bind_reading (told.textAt "table" s.table rfl) ?_
  refine bind_reading (told.textOr "mode" s.mode.name rfl _) ?_
  refine bind_checked s.mode.read_name ?_
  rw [told.get? "where" _ rfl, told.get? "filter" _ rfl]
  obtain ⟨name, table, mode, predicate, correlations, filter⟩ := s
  -- with a predicate or without one, the rest is read in the same way
  cases predicate
  case' none => refine Checked.bind_of_ok (a := none) rfl ?_
  case' some p => refine Checked.bind_of_ok (congrArg (some <$> ·) p.ofJson_toJson) ?_
  all_goals
    refine bind_reading (told.elemsOr_nil "conditions" Correlation.toJson correlations rfl) ?_
    refine Checked.bind_of_ok conditions ?_
    cases filter <;> rfl

end Subquery

/-! ## Joins -/

theorem JoinCondition.ofJson_toJson (c : JoinCondition) : ofJson c.toJson = .ok c := by
  cases c <;> rfl

namespace Join

/-- Reads each item of a list that may be absent. -/
def listed {α : Type} (read : Json → Outcome α) : Option Json → Outcome (List α)
  | none => .ok []
  | some items => items.elems.mapM read

theorem listed_of_forall {α : Type} {read : Json → Outcome α} {write : α → Json} {items : List α}
    (back : ∀ a ∈ items, read (write a) = .ok a) :
    listed read (listOf write items) = .ok items := by
  cases items with
  | nil => rfl
  | cons a items => exact Checked.mapM_of_forall back

/-- Each item of a list was read from an item of what is there. -/
theorem exists_of_mem_listed {α : Type} {read : Json → Outcome α} {part : Option Json} {items : List α}
    (h : listed read part = .ok items) {a : α} (mem : a ∈ items) :
    ∃ list ∈ part, ∃ item ∈ list.elems, read item = .ok a := by
  cases part with
  | none =>
    cases h
    cases mem
  | some list => exact ⟨list, rfl, Checked.exists_of_mem_mapM h mem⟩

theorem ofJson_eq (j : Json) : ofJson j = (do
    let table ← j.textAt "table"
    let tableAlias ← j.textOr "alias" []
    let type ← JoinType.vocabulary.read (← j.textOr "type" "left")
    let condition ← JoinCondition.ofJson (← j.member "on")
    let columns ← listed Column.ofJson (j.get? "columns")
    let joins ← listed ofJson (j.get? "joins")
    return mk table tableAlias type condition columns joins) := by
  rw [ofJson]
  simp only [List.mapM_subtype, List.unattach_attach]
  cases j.get? "columns" <;> cases j.get? "joins" <;> rfl

theorem listToJson_eq_map (js : List Join) : listToJson js = js.map toJson := by
  induction js with
  | nil => rfl
  | cons j js ih => rw [listToJson, ih, List.map_cons]

/-- What is written of a join, by the names of the members. -/
def fields (j : Join) : List (Bytes × Option Json) :=
  [("table", some (.str j.table)), ("type", some (.str j.type.name)),
    ("alias", if !j.tableAlias.isEmpty then some (.str j.tableAlias) else none),
    ("on", some j.condition.toJson),
    ("columns", listOf Column.toJson j.columns),
    ("joins", listOf toJson j.joins)]

theorem tells (j : Join) : j.toJson.Tells j.fields := by
  cases j
  rw [toJson, listToJson_eq_map]
  refine tells_recordOf ?_ ?_
  · unfold present fields
    rw [List.flatMap_def]
    simp only [memberIf_eq, List.map_cons, List.map_nil]
    rfl
  · simp only [fields, List.map_cons, List.map_nil]
    decide

/-- A join is read back as it was written if its columns and the joins that hang on it are. -/
theorem ofJson_toJson (j : Join) (columns : ∀ c ∈ j.columns, Column.ofJson c.toJson = .ok c)
    (joins : ∀ child ∈ j.joins, ofJson child.toJson = .ok child) : ofJson j.toJson = .ok j := by
  have told := j.tells
  rw [ofJson_eq]
  refine bind_reading (told.textAt "table" j.table rfl) ?_
  refine bind_reading (told.textOr_nil "alias" j.tableAlias rfl) ?_
  refine bind_reading (told.textOr "type" j.type.name rfl _) ?_
  refine bind_checked j.type.read_name ?_
  refine bind_reading (told.member "on" j.condition.toJson rfl) ?_
  refine bind_reading j.condition.ofJson_toJson ?_
  rw [told.get? "columns" _ rfl, told.get? "joins" _ rfl]
  refine Checked.bind_of_ok (listed_of_forall columns) ?_
  refine Checked.bind_of_ok (listed_of_forall joins) ?_
  cases j
  rfl

/-- The columns of a join that was read were read themselves, and so were the joins that hang on it, from smaller
parts. -/
theorem parts_of_ofJson (j : Json) :
    Checked.Ensures (ofJson j) fun join => (∀ c ∈ join.columns, ∃ part, Column.ofJson part = .ok c)
      ∧ ∀ child ∈ join.joins, ∃ part, sizeOf part < sizeOf j ∧ ofJson part = .ok child := by
  rw [ofJson_eq]
  iterate 6 refine Checked.ensures_bind fun _ _ => ?_
  refine Checked.ensures_bind fun columns readColumns => ?_
  refine Checked.ensures_bind fun joins readJoins => Checked.ensures_pure ⟨fun c mem => ?_, fun child mem => ?_⟩
  · obtain ⟨list, -, part, -, read⟩ := exists_of_mem_listed readColumns mem
    exact ⟨part, read⟩
  · obtain ⟨list, given, part, part_mem, read⟩ := exists_of_mem_listed readJoins mem
    exact ⟨part, Nat.lt_of_le_of_lt (sizeOf_le_of_mem_elems part_mem) (sizeOf_lt_of_get? given), read⟩

/-- A join that was read is read back as it was written. -/
theorem ofJson_toJson_of_ofJson {j : Json} {join : Join} (read : ofJson j = .ok join) :
    ofJson join.toJson = .ok join := by
  obtain ⟨columns, joins⟩ := parts_of_ofJson j join read
  refine ofJson_toJson join (fun c mem => ?_) (fun child mem => ?_)
  · obtain ⟨part, read⟩ := columns c mem
    exact Column.ofJson_toJson_of_ofJson read
  · obtain ⟨part, smaller, read⟩ := joins child mem
    exact ofJson_toJson_of_ofJson read
termination_by sizeOf j

end Join

end TableQuery

import TableQuery.Proofs.Checked
import TableQuery.Proofs.Json.Members
import TableQuery.Request.Params
import TableQuery.Statement.Compiled

/-!
# What is written of a request

Parameters are written with their filters by name, in the order of the names; all else of them is written as it
stands. So what is written tells parameters whose filters are in that order, which those of an object are. Of a context
it tells all that conditions can refer to: parameters without members are left out, but nothing can be found in them.

## What is proved

`Params.toJson_inj`: what is written tells parameters whose filters are in the order of their names.
`Params.names_of_ofJson`: filters have the names under which they are read.
`Context.timed_of_ofJson`: a context has the time that it was read with.
`Context.toJson_inj`: what is written tells what conditions refer to, for contexts with a time in whole milliseconds.
-/

namespace TableQuery

/-! ## Names -/

theorem Operator.name_injective : Function.Injective Operator.name := by
  intro a b same
  cases a <;> cases b <;> first | rfl | exact absurd same (by decide)

theorem SortDirection.name_injective : Function.Injective SortDirection.name := by
  intro a b same
  cases a <;> cases b <;> first | rfl | exact absurd same (by decide)

theorem LogicalOp.name_injective : Function.Injective LogicalOp.name := by
  intro a b same
  cases a <;> cases b <;> first | rfl | exact absurd same (by decide)

/-! ## Parts of parameters -/

theorem Json.ofInt64_injective : Function.Injective Json.ofInt64 := by
  intro m n same
  exact Int64.toInt_inj.mp (Json.int.inj same)

theorem Json.ofTexts_injective : Function.Injective Json.ofTexts := by
  intro xs ys same
  exact List.map_injective_iff.mpr (fun _ _ => Json.str.inj) (Json.arr.inj same)

theorem FilterParam.toJson_injective : Function.Injective FilterParam.toJson := by
  intro f g same
  unfold toJson at same
  have members := Json.record_inj same rfl (by simp only [List.map_cons, List.map_nil]; decide)
  simp only [List.cons.injEq, Prod.mk.injEq, true_and, and_true, Json.str.injEq] at members
  obtain ⟨op, value⟩ := f
  obtain ⟨op', value'⟩ := g
  cases Operator.name_injective members.1
  cases members.2
  rfl

theorem SortKey.toJson_injective : Function.Injective SortKey.toJson := by
  intro k l same
  unfold toJson at same
  have members := Json.record_inj same rfl (by simp only [List.map_cons, List.map_nil]; decide)
  simp only [List.cons.injEq, Prod.mk.injEq, true_and, and_true, Json.str.injEq] at members
  obtain ⟨field, direction⟩ := k
  obtain ⟨field', direction'⟩ := l
  cases members.1
  cases SortDirection.name_injective members.2
  rfl

theorem Condition.toJson_injective : Function.Injective Condition.toJson := by
  intro c d same
  unfold toJson at same
  have members := Json.record_inj same rfl (by simp only [List.map_cons, List.map_nil]; decide)
  simp only [List.cons.injEq, Prod.mk.injEq, true_and, and_true, Json.str.injEq] at members
  obtain ⟨field, op, value⟩ := c
  obtain ⟨field', op', value'⟩ := d
  cases members.1
  cases Operator.name_injective members.2.1
  cases members.2.2
  rfl

namespace FilterTree

theorem group_ne_leaf (op : LogicalOp) (children : List FilterTree) (c : Condition) :
    (group op children).toJson ≠ (leaf c).toJson := by
  intro same
  have read := congrArg (Json.get? · "field") same
  have leaf : (FilterTree.leaf c).toJson.get? "field" = some (.str c.field) :=
    Json.get?_record (by simp only [List.map_cons, List.map_nil]; decide) List.mem_cons_self
  rw [leaf] at read
  cases op <;> cases read

mutual

/-- What is written of a tree tells it: a group has one member, named for its connective. -/
theorem toJson_inj (t u : FilterTree) (same : t.toJson = u.toJson) : t = u := by
  match t, u with
  | leaf c, leaf d =>
    rw [toJson, toJson] at same
    rw [Condition.toJson_injective same]
  | leaf c, group op children => exact absurd same.symm (group_ne_leaf op children c)
  | group op children, leaf c => exact absurd same (group_ne_leaf op children c)
  | group op ts, group op' us =>
    rw [toJson, toJson] at same
    have members := List.cons.inj (Json.obj.inj same)
    obtain ⟨name, parts⟩ := Prod.mk.inj members.1
    rw [LogicalOp.name_injective name, listToJson_inj ts us (Json.arr.inj parts)]

theorem listToJson_inj (ts us : List FilterTree) (same : listToJson ts = listToJson us) : ts = us := by
  match ts, us with
  | [], [] => rfl
  | [], _ :: _ => cases same
  | _ :: _, [] => cases same
  | t :: ts, u :: us =>
    obtain ⟨head, more⟩ := List.cons.inj same
    rw [toJson_inj t u head, listToJson_inj ts us more]

end

theorem toJson_injective : Function.Injective toJson := fun t u => toJson_inj t u

end FilterTree

/-! ## Parameters -/

namespace Params

/-- What is written of filters. -/
def filtersToJson (filters : List (Bytes × FilterParam)) : Json :=
  .record (filters.map fun (field, f) => (field, f.toJson))

/-- What is written of parameters, by the names of the members. -/
def fields (p : Params) : List (Bytes × Option Json) :=
  [("filters", if !p.filters.isEmpty then some (filtersToJson p.filters) else none),
    ("filter_groups", if !p.filterGroups.isEmpty then some (.arr (p.filterGroups.map FilterTree.toJson)) else none),
    ("search", p.search.map .str),
    ("sort", if !p.sort.isEmpty then some (.arr (p.sort.map SortKey.toJson)) else none),
    ("page", p.page.map .ofInt64),
    ("page_size", p.pageSize.map .ofInt64),
    ("cursor", p.cursor.map .str),
    ("select", if !p.select.isEmpty then some (.ofTexts p.select) else none),
    ("include_deleted", if p.includeDeleted then some (.bool true) else none)]

theorem toJson_eq (p : Params) : p.toJson = .record (Json.present p.fields) := by
  unfold toJson Json.recordOf Json.present fields filtersToJson
  rw [List.flatMap_def]
  simp only [Json.memberIf_eq, Json.member?_eq, List.map_cons, List.map_nil]

/-- A list that is written when it has items is told by what is written. -/
theorem list_inj {α β : Type} {xs ys : List α} {written written' : β} (inj : written = written' → xs = ys)
    (same : (if !xs.isEmpty then some written else none) = if !ys.isEmpty then some written' else none) : xs = ys := by
  cases xs with
  | nil =>
    cases ys with
    | nil => rfl
    | cons y ys => cases same
  | cons x xs =>
    cases ys with
    | nil => cases same
    | cons y ys => exact inj (Option.some.inj same)

theorem filtersToJson_inj {fs gs : List (Bytes × FilterParam)} (hf : Members.Sorted fs) (hg : Members.Sorted gs)
    (same : filtersToJson fs = filtersToJson gs) : fs = gs := by
  have written (fs : List (Bytes × FilterParam)) (sorted : Members.Sorted fs) :
      filtersToJson fs = .obj (fs.map fun (field, f) => (field, f.toJson)) :=
    congrArg Json.obj (Members.ofList_of_sorted (sorted.of_keys (by rw [Members.keys, List.map_map]; rfl)))
  rw [written fs hf, written gs hg] at same
  refine List.map_injective_iff.mpr ?_ (Json.obj.inj same)
  rintro ⟨field, f⟩ ⟨field', g⟩ equal
  obtain ⟨names, values⟩ := Prod.mk.inj equal
  cases names
  rw [FilterParam.toJson_injective values]

/-- What is written tells parameters whose filters are in the order of their names. -/
theorem toJson_inj {p q : Params} (hp : Members.Sorted p.filters) (hq : Members.Sorted q.filters)
    (same : p.toJson = q.toJson) : p = q := by
  rw [toJson_eq, toJson_eq] at same
  have distinct : (p.fields.map Prod.fst).Nodup := by
    simp only [fields, List.map_cons, List.map_nil]
    decide
  have members : p.fields = q.fields := Json.present_inj same rfl distinct
  have text : Function.Injective (Option.map Json.str) := Option.map_injective fun _ _ => Json.str.inj
  have number : Function.Injective (Option.map Json.ofInt64) := Option.map_injective Json.ofInt64_injective
  have array {α : Type} {write : α → Json} (inj : Function.Injective write) {xs ys : List α}
      (equal : Json.arr (xs.map write) = .arr (ys.map write)) : xs = ys :=
    List.map_injective_iff.mpr inj (Json.arr.inj equal)
  unfold fields at members
  simp only [List.cons.injEq, Prod.mk.injEq, true_and, and_true] at members
  obtain ⟨filters, groups, search, sort, page, pageSize, cursor, select, deleted⟩ := members
  replace filters := list_inj (filtersToJson_inj hp hq) filters
  replace groups := list_inj (array FilterTree.toJson_injective) groups
  replace sort := list_inj (array SortKey.toJson_injective) sort
  replace select := list_inj (fun equal => Json.ofTexts_injective equal) select
  replace deleted : p.includeDeleted = q.includeDeleted := by
    cases hp : p.includeDeleted <;> cases hq : q.includeDeleted <;> rw [hp, hq] at deleted
    · cases deleted
    · cases deleted
  cases p
  cases q
  cases filters
  cases groups
  cases text search
  cases sort
  cases number page
  cases number pageSize
  cases text cursor
  cases select
  cases deleted
  rfl

/-- Reads the filter of a name. -/
def readFilter (item : Bytes × Json) : Outcome (Bytes × FilterParam) := do
  let param ← FilterParam.ofJson item.1 item.2
  pure (item.1, param)

/-- Parameters are read part by part; filters, order and selection may each be absent. -/
theorem read_eq (j : Json) : Params.read j = (do
    let filters ← (j.get? "filters").elim (.ok []) fun filters => filters.items.mapM readFilter
    let filterGroups ← (← j.elemsOr "filter_groups").mapM (FilterTree.ofJson .request)
    let sort ← (j.get? "sort").elim (.ok []) sortKeys
    let page ← integer? j "page"
    let pageSize ← integer? j (if j.has "page_size" then "page_size" else "pageSize")
    let select ← (j.get? "select").elim (.ok []) fun fields => selection fields
    let includeDeleted ← j.boolOr "include_deleted" false
    return {
      filters, filterGroups, sort, page, pageSize, select, includeDeleted
      search := looseText? j "search", cursor := looseText? j "cursor" }) := by
  unfold Params.read
  cases j.get? "filters" <;> cases j.get? "sort" <;> cases j.get? "select" <;> rfl

/-- The filters of parameters are read from the member for them; the other members do not change them. -/
theorem filters_of_read (j : Json) : Checked.Ensures (Params.read j) fun p =>
    (j.get? "filters").elim (.ok []) (fun filters => filters.items.mapM readFilter) = .ok p.filters := by
  rw [read_eq]
  refine Checked.ensures_bind fun filters read => ?_
  repeat refine Checked.ensures_bind fun _ _ => ?_
  exact Checked.ensures_pure read

/-- Filters have the names that are met in the member they are read from. -/
theorem names_of_ofJson {j : Json} {p : Params} (read : ofJson j = .ok p) :
    p.filters.map Prod.fst = ((j.get? "filters").elim [] Json.items).map Prod.fst := by
  have hfilters := filters_of_read j p (Checked.wordMismatch_eq_ok.mp read)
  cases given : j.get? "filters" with
  | none =>
    rw [given] at hfilters
    rw [← Except.ok.inj hfilters]
    rfl
  | some value =>
    rw [given] at hfilters
    have named : List.Forall₂ (fun filter item => filter.1 = item.1) p.filters value.items :=
      (Checked.mapM_eq_ok.mp hfilters).flip.imp fun filter item step => by
        obtain ⟨param, -, made⟩ := Checked.bind_eq_ok.mp step
        cases made
        rfl
    exact List.forall₂_eq_eq_eq ▸ List.forall₂_map_left_iff.mpr (List.forall₂_map_right_iff.mpr named)

end Params

/-! ## Contexts -/

namespace Context

/-- A context with the time that it was read with, in milliseconds which an instant can hold. -/
def Timed (c : Context) : Prop :=
  ∃ ms : Int64, c.now = some (.ofMilliseconds ms) ∧ -2 ^ 63 ≤ ms.toInt * 1000000 ∧ ms.toInt * 1000000 < 2 ^ 63

/-- A context has the time that it was read with. -/
theorem now_of_ofJson {j value : Json} {c : Context} {ms : Int64} (read : ofJson j = .ok c)
    (given : j.get? "now_ms" = some value) (number : value.asInt64 = .ok ms) : c.now = some (.ofMilliseconds ms) := by
  have steps := Checked.mapError_eq_ok.mp read
  unfold Context.read at steps
  dsimp only at steps
  rw [given] at steps
  -- with a user or without one, the time is read in the same way
  split at steps
  all_goals
    obtain ⟨user, -, steps⟩ := Checked.bind_eq_ok.mp steps
    obtain ⟨parameters, -, steps⟩ := Checked.bind_eq_ok.mp steps
    dsimp only at steps
    rw [number] at steps
    cases steps
    rfl

theorem timed_of_ofJson {j value : Json} {c : Context} {ms : Int64} (read : ofJson j = .ok c)
    (given : j.get? "now_ms" = some value) (number : value.asInt64 = .ok ms) (low : -2 ^ 63 ≤ ms.toInt * 1000000)
    (high : ms.toInt * 1000000 < 2 ^ 63) : c.Timed :=
  ⟨ms, now_of_ofJson read given number, low, high⟩

/-- A context whose parameters are an object where nothing can be found in them. -/
def tidy (c : Context) : Context := { c with parameters := if c.parameters.size != 0 then c.parameters else .obj [] }

theorem descend_of_size_eq_zero {j : Json} (empty : j.size = 0) (path : Bytes) :
    descend j (Bytes.splitOn Ascii.dot path) = none := by
  obtain ⟨key, keys, cut⟩ := List.exists_cons_of_ne_nil (Bytes.splitOn_ne_nil Ascii.dot path)
  have absent : j.get? key = none := by
    cases j with
    | obj members =>
      cases List.length_eq_zero_iff.mp empty
      rfl
    | _ => rfl
  rw [cut, descend, absent]
  rfl

theorem size_tidy {c : Context} (empty : c.parameters.size = 0) : c.tidy.parameters.size = 0 := by
  unfold tidy
  dsimp only
  rw [empty]
  rfl

/-- Conditions find the same in a tidy context. -/
theorem lookup_tidy (c : Context) (reference : Bytes) : c.tidy.lookup reference = c.lookup reference := by
  have path (path : Bytes) : c.tidy.lookupPath path = c.lookupPath path := by
    by_cases empty : c.parameters.size = 0
    · unfold lookupPath
      rw [descend_of_size_eq_zero empty, descend_of_size_eq_zero (size_tidy empty)]
      rfl
    · rw [tidy, if_pos (bne_iff_ne.mpr empty)]
  unfold lookup
  split
  · exact path _
  · rfl

/-- What is written of a context, by the names of the members. -/
def fields (c : Context) : List (Bytes × Option Json) :=
  [("tenant_id", c.tenantId.map .str), ("user", c.user.map userToJson),
    ("variables", if c.parameters.size != 0 then some c.parameters else none),
    ("now_ms", c.now.map fun t => .ofInt64 t.toMilliseconds)]

theorem toJson_eq (c : Context) : c.toJson = .record (Json.present c.fields) := by
  unfold toJson Json.recordOf Json.present fields
  rw [List.flatMap_def]
  simp only [Json.memberIf_eq, Json.member?_eq, List.map_cons, List.map_nil]

theorem userToJson_injective : Function.Injective userToJson := by
  intro u v same
  unfold userToJson at same
  have members := Json.record_inj same rfl (by simp only [List.map_cons, List.map_nil]; decide)
  simp only [List.cons.injEq, Prod.mk.injEq, true_and, and_true, Json.str.injEq] at members
  obtain ⟨id, roles, permissions⟩ := u
  obtain ⟨id', roles', permissions'⟩ := v
  cases members.1
  cases Json.ofTexts_injective members.2.1
  cases Json.ofTexts_injective members.2.2
  rfl

theorem toMilliseconds_ofMilliseconds {ms : Int64} (low : -2 ^ 63 ≤ ms.toInt * 1000000)
    (high : ms.toInt * 1000000 < 2 ^ 63) : (Instant.ofMilliseconds ms).toMilliseconds = ms := by
  have million : (1000000 : Int64).toInt = 1000000 := rfl
  have exact : (ms * 1000000).toInt = ms.toInt * 1000000 := by
    rw [Int64.toInt_mul, million]
    exact Int.bmod_eq_of_le low high
  refine Int64.toInt_inj.mp ?_
  change (ms * 1000000 / 1000000).toInt = ms.toInt
  rw [Int64.toInt_div, exact, million, Int.mul_tdiv_cancel _ (by decide)]
  exact Int.bmod_eq_of_le (by omega) (by omega)

/-- Times of whole milliseconds are told by the milliseconds. -/
theorem Timed.now_eq {c d : Context} (hc : c.Timed) (hd : d.Timed)
    (same : c.now.map (fun t => Json.ofInt64 t.toMilliseconds) = d.now.map fun t => .ofInt64 t.toMilliseconds) :
    c.now = d.now := by
  obtain ⟨ms, hms, low, high⟩ := hc
  obtain ⟨ms', hms', low', high'⟩ := hd
  rw [hms, hms', Option.map_some, Option.map_some, toMilliseconds_ofMilliseconds low high,
    toMilliseconds_ofMilliseconds low' high'] at same
  rw [hms, hms', Json.ofInt64_injective (Option.some.inj same)]

/-- What is written tells what conditions refer to. -/
theorem toJson_inj {c d : Context} (hc : c.Timed) (hd : d.Timed) (same : c.toJson = d.toJson) : c.tidy = d.tidy := by
  rw [toJson_eq, toJson_eq] at same
  have distinct : (c.fields.map Prod.fst).Nodup := by
    simp only [fields, List.map_cons, List.map_nil]
    decide
  have members : c.fields = d.fields := Json.present_inj same rfl distinct
  have text : Function.Injective (Option.map Json.str) := Option.map_injective fun _ _ => Json.str.inj
  unfold fields at members
  simp only [List.cons.injEq, Prod.mk.injEq, true_and, and_true] at members
  obtain ⟨tenant, user, parameters, now⟩ := members
  have tidied (c : Context) : c.tidy.parameters
      = (if c.parameters.size != 0 then some c.parameters else none).getD (.obj []) := by
    unfold tidy
    split_ifs <;> rfl
  have parameters : c.tidy.parameters = d.tidy.parameters := by rw [tidied, tidied, parameters]
  have tenant : c.tidy.tenantId = d.tidy.tenantId := text tenant
  have user : c.tidy.user = d.tidy.user := Option.map_injective userToJson_injective user
  have now : c.tidy.now = d.tidy.now := hc.now_eq hd now
  cases hc' : c.tidy
  cases hd' : d.tidy
  rw [hc', hd'] at parameters tenant user now
  cases parameters
  cases tenant
  cases user
  cases now
  rfl

end Context

end TableQuery

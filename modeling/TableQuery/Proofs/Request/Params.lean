import TableQuery.Proofs.Request.Written
import TableQuery.Proofs.Table.Tree
import TableQuery.Proofs.Text.Digits

/-!
# Parameters read back

Parameters are written in their long form, which is read by the same rules as the short forms. Two of these rules may
take what is written for something else: filters are written as the members of an object, which stand in the order of
their names, and a minus sign in front of a field to sort by is taken for a direction wherever it is read.

Positions name the filters of an array, and the name of position 10 comes before that of position 2. So up to ten filters
of an array keep their order, and more do not.

## What is proved

`Params.read_toJson`: what is read of any parameters that were written.
`Params.sorted_of_ofJson`: which filters stand in the order of their names when they are read.
`Params.readsBack_of_ofJson`: what comes back of parameters that were read.
-/

namespace TableQuery

open Json Outcome

/-! ## Filters -/

theorem FilterParam.ofJson_toJson (field : Bytes) (f : FilterParam) : ofJson field f.toJson = .ok f := by
  have told : f.toJson.Tells _ := tells_record (by simp only [List.map_cons, List.map_nil]; decide)
  unfold ofJson
  rw [told.get? "op" _ rfl]
  refine bind_reading (a := f.op.name) rfl ?_
  rw [f.op.ofName?_name]
  exact bind_reading (told.getOr "value" (some f.value) rfl .null) rfl

/-- The items of an array are named by their positions. -/
theorem Json.names_arr (items : List Json) :
    (Json.arr items).items.map Prod.fst = (List.range items.length).map Bytes.ofNat := by
  apply List.ext_getElem
  · simp [Json.items]
  · simp [Json.items]

theorem Json.nodup_names {value : Json} (ordered : ∀ members, value = .obj members → Members.Sorted members) :
    (value.items.map Prod.fst).Nodup := by
  cases value with
  | arr items =>
    rw [names_arr]
    exact List.nodup_range.map Bytes.ofNat_injective
  | obj members => exact (ordered members rfl).nodup
  | null => exact List.nodup_nil
  | bool b => exact List.nodup_singleton _
  | int n => exact List.nodup_singleton _
  | float x => exact List.nodup_singleton _
  | str s => exact List.nodup_singleton _

/-- Ten positions stand in the order of their names. -/
theorem Json.sorted_items {value : Json} (ordered : ∀ members, value = .obj members → Members.Sorted members)
    (short : ∀ items, value = .arr items → items.length ≤ 10) : Members.Sorted value.items := by
  cases value with
  | arr items =>
    have positions : ∀ n ≤ 10, ((List.range n).map Bytes.ofNat).Pairwise (· < ·) := by decide
    rw [Members.sorted_iff, Members.keys, names_arr]
    exact positions items.length (short items rfl)
  | obj members => exact ordered members rfl
  | null => exact trivial
  | bool b => exact ⟨List.forall_mem_nil _, trivial⟩
  | int n => exact ⟨List.forall_mem_nil _, trivial⟩
  | float x => exact ⟨List.forall_mem_nil _, trivial⟩
  | str s => exact ⟨List.forall_mem_nil _, trivial⟩

theorem SortDirection.ofSigned_of_unsigned {field : Bytes} (unsigned : field.head? ≠ some Ascii.minus) :
    ofSigned field = (field, .asc) := by
  unfold ofSigned
  split
  · exact absurd rfl unsigned
  · rfl

namespace Params

/-- Filters come back in the order of their names; of several with one name the last one counts. -/
theorem mapM_filtersToJson (filters : List (Bytes × FilterParam)) :
    (filtersToJson filters).items.mapM readFilter = .ok (Members.ofList filters) := by
  have items : (filtersToJson filters).items = _ := Members.ofList_map FilterParam.toJson
  rw [items]
  exact Checked.mapM_of_forall fun filter _ => Checked.bind_of_ok (filter.2.ofJson_toJson filter.1) rfl

/-! ## Sort keys -/

/-- A field to sort by that is not taken for a direction and another field. -/
def Unsigned (k : SortKey) : Prop := k.field.head? ≠ some Ascii.minus

instance : DecidablePred Unsigned := fun k => inferInstanceAs (Decidable (k.field.head? ≠ some Ascii.minus))

/-- What comes back of a sort key. -/
def unsign (k : SortKey) : SortKey := { k with field := (SortDirection.ofSigned k.field).1 }

theorem unsign_of_unsigned {k : SortKey} (unsigned : Unsigned k) : unsign k = k := by
  unfold unsign
  rw [SortDirection.ofSigned_of_unsigned unsigned]

theorem sortKey_toJson (k : SortKey) : sortKey k.toJson = .ok (unsign k) := by
  have told : k.toJson.Tells _ := tells_record (by simp only [List.map_cons, List.map_nil]; decide)
  change (liftM (k.toJson.textAt "field") >>= fun field => _ : Outcome SortKey) = _
  refine bind_reading (told.textAt "field" k.field rfl) ?_
  dsimp only
  rw [told.get? "direction" _ rfl]
  refine bind_reading (a := k.direction.name) rfl ?_
  cases k with
  | mk field direction => cases direction <;> rfl

theorem mapM_sortKey (sort : List SortKey) : (sort.map SortKey.toJson).mapM sortKey = .ok (sort.map unsign) := by
  rw [Checked.mapM_eq_ok, List.forall₂_map_left_iff, List.forall₂_map_right_iff, List.forall₂_same]
  exact fun k _ => sortKey_toJson k

/-! ## Parameters -/

theorem tells (p : Params) : p.toJson.Tells p.fields := by
  rw [toJson_eq]
  refine tells_present ?_
  simp only [fields, List.map_cons, List.map_nil]
  decide

theorem integer?_toJson {j : Json} {fields : List (Bytes × Option Json)} (told : j.Tells fields) (key : Bytes)
    (n : Option Int64) (given : Members.find? key fields = some (n.map .ofInt64)) : integer? j key = .ok n := by
  unfold integer?
  rw [told.get? key _ given]
  cases n with
  | none => rfl
  | some n => exact congrArg (Except.ok ∘ some) (Int64.ofInt_toInt n)

/-- The size of a page is read from the one of its two names under which it is written. -/
theorem pageSize_toJson (p : Params) :
    integer? p.toJson (if p.toJson.has "page_size" then "page_size" else "pageSize") = .ok p.pageSize := by
  have told := p.tells
  split_ifs with given
  · exact integer?_toJson told "page_size" p.pageSize rfl
  · unfold Json.has at given
    rw [told.get? "page_size" _ rfl] at given
    have absent : p.toJson.get? "pageSize" = none := told.all "pageSize"
    unfold integer?
    rw [absent]
    cases size : p.pageSize with
    | none => rfl
    | some n =>
      rw [size] at given
      exact absurd rfl given

theorem looseText?_toJson {j : Json} {fields : List (Bytes × Option Json)} (told : j.Tells fields) (key : Bytes)
    (text : Option Bytes) (given : Members.find? key fields = some (text.map .str)) : looseText? j key = text := by
  unfold looseText?
  rw [told.get? key _ given]
  cases text <;> rfl

/-- Whatever parameters were written, they are read. -/
theorem read_toJson (p : Params) :
    read p.toJson = .ok { p with filters := Members.ofList p.filters, sort := p.sort.map unsign } := by
  have told := p.tells
  have filters : (p.toJson.get? "filters").elim (.ok []) (fun filters => filters.items.mapM readFilter)
      = .ok (Members.ofList p.filters) := by
    rw [told.get? "filters" _ rfl]
    cases p.filters with
    | nil => rfl
    | cons filter filters => exact mapM_filtersToJson (filter :: filters)
  have sort : (p.toJson.get? "sort").elim (.ok []) sortKeys = .ok (p.sort.map unsign) := by
    rw [told.get? "sort" _ rfl]
    cases p.sort with
    | nil => rfl
    | cons k ks => exact mapM_sortKey (k :: ks)
  have select : ((p.toJson.get? "select").elim (.ok []) fun fields => selection fields : Outcome (List Bytes))
      = .ok p.select := by
    rw [told.get? "select" _ rfl]
    cases p.select with
    | nil => rfl
    | cons field fields => exact reading_of_ok (asTexts_ofTexts (field :: fields))
  rw [read_eq]
  refine Checked.bind_of_ok filters ?_
  refine bind_reading (told.elemsOr_nil "filter_groups" FilterTree.toJson p.filterGroups rfl) ?_
  refine Checked.bind_of_ok (Checked.mapM_of_forall fun t _ => t.ofJson_toJson .request) ?_
  refine Checked.bind_of_ok sort ?_
  refine bind_reading (integer?_toJson told "page" p.page rfl) ?_
  refine bind_reading p.pageSize_toJson ?_
  refine Checked.bind_of_ok select ?_
  refine bind_reading (told.boolOr_false "include_deleted" p.includeDeleted rfl) ?_
  rw [looseText?_toJson told "search" p.search rfl, looseText?_toJson told "cursor" p.cursor rfl]
  rfl

/-- Parameters come back with all parts but the filters and the order as they were. The filters are the same, in the
order of their names, and so are the fields to sort by that begin with no minus sign, in their places. -/
structure ReadsBackAs (p q : Params) : Prop where
  others : q = { p with filters := q.filters, sort := q.sort }
  filters : q.filters.Perm p.filters
  byName : Members.Sorted q.filters
  sort : List.Forall₂ (fun k k' => Unsigned k → k' = k) p.sort q.sort

/-- The filters of an object, or of an array of at most ten, stand in the order of their names. -/
theorem sorted_of_ofJson {j : Json} {p : Params} (read : ofJson j = .ok p)
    (ordered : ∀ members, j.get? "filters" = some (.obj members) → Members.Sorted members)
    (short : ∀ items, j.get? "filters" = some (.arr items) → items.length ≤ 10) : Members.Sorted p.filters := by
  have names := names_of_ofJson read
  cases given : j.get? "filters" with
  | none =>
    rw [given] at names
    rw [List.map_eq_nil_iff.mp names]
    exact trivial
  | some value =>
    rw [given] at names
    have sorted : Members.Sorted value.items :=
      sorted_items (fun members same => ordered members (same ▸ given)) fun items same => short items (same ▸ given)
    exact sorted.of_keys names

/-- Filters that were read have different names. -/
theorem nodup_of_ofJson {j : Json} {p : Params} (read : ofJson j = .ok p)
    (ordered : ∀ members, j.get? "filters" = some (.obj members) → Members.Sorted members) :
    (p.filters.map Prod.fst).Nodup := by
  rw [names_of_ofJson read]
  cases given : j.get? "filters" with
  | none => exact List.nodup_nil
  | some value => exact nodup_names fun members same => ordered members (same ▸ given)

/-- Parameters that were read are read back. They come back as they were, if the filters were not those of an array of
more than ten, and no field to sort by begins with a minus sign. -/
theorem readsBack_of_ofJson {j : Json} {p : Params} (read : ofJson j = .ok p)
    (ordered : ∀ members, j.get? "filters" = some (.obj members) → Members.Sorted members) :
    ∃ q, ofJson p.toJson = .ok q ∧ p.ReadsBackAs q
      ∧ ((∀ items, j.get? "filters" = some (.arr items) → items.length ≤ 10) → q.filters = p.filters
        ∧ ((∀ k ∈ p.sort, Unsigned k) → q = p)) := by
  refine ⟨_, Checked.wordMismatch_eq_ok.mpr p.read_toJson, ⟨rfl, ?_, ?_, ?_⟩, fun short => ?_⟩
  · exact Members.ofList_perm (nodup_of_ofJson read ordered)
  · exact Members.sorted_ofList p.filters
  · rw [List.forall₂_map_right_iff, List.forall₂_same]
    exact fun k _ => unsign_of_unsigned
  · have filters : Members.ofList p.filters = p.filters :=
      Members.ofList_of_sorted (sorted_of_ofJson read ordered short)
    refine ⟨filters, fun unsigned => ?_⟩
    have sort : p.sort.map unsign = p.sort :=
      (List.map_congr_left fun k mem => unsign_of_unsigned (unsigned k mem)).trans p.sort.map_id
    rw [filters, sort]

/-- Two filters of an array, an order with a direction of each form, and a selection with commas. -/
theorem readsBack_short :
    let j : Json := .obj
      [("filters", .arr [.str "open", .obj [("gte", .int 3)]]), ("pageSize", .int 20), ("select", .str "id,,total"),
        ("sort", .arr [.str "-total", .obj [("field", .str "id")]])]
    let p : Params :=
      { filters := [("0", { value := .str "open" }), ("1", { op := .gte, value := .int 3 })]
        sort := [⟨"total", .desc⟩, ⟨"id", .asc⟩], pageSize := some 20, select := ["id", "total"] }
    ofJson j = .ok p ∧ ofJson p.toJson = .ok p := by
  intro j p
  have read : ofJson j = .ok p := by rfl
  obtain ⟨q, back, -, same⟩ := readsBack_of_ofJson read (by rintro members ⟨⟩)
  have unsigned : ∀ k ∈ p.sort, Unsigned k := by decide
  have short : ∀ items, j.get? "filters" = some (.arr items) → items.length ≤ 10 := by
    rintro items ⟨⟩
    decide
  exact ⟨read, (same short).2 unsigned ▸ back⟩

/-- Eleven filters of an array come back in another order, and a field to sort by with two minus signs with none. -/
theorem not_readsBack :
    (∃ p q, ofJson (.obj [("filters", .arr ((List.range 11).map fun i => .int i))]) = .ok p ∧ ofJson p.toJson = .ok q
        ∧ q.filters.map Prod.fst ≠ p.filters.map Prod.fst)
      ∧ ofJson (.obj [("sort", .arr [.str "--x"])]) = .ok { sort := [⟨"-x", .desc⟩] }
      ∧ ofJson (toJson { sort := [⟨"-x", .desc⟩] }) = .ok { sort := [⟨"x", .desc⟩] } := by
  refine ⟨⟨{ filters := (List.range 11).map fun i => (Bytes.ofNat i, { value := .int i }) }, _, rfl, rfl, ?_⟩, rfl, rfl⟩
  decide

end Params

end TableQuery

import TableQuery.Proofs.Request.Params
import TableQuery.Proofs.Sql.Quoted

/-!
# Short forms of a request

An order may be a text with commas, an array, or within an array a record or a signed text for each key; a selection a
text with commas or an array; a filter a value to equal, an object with one operator for its key, or one that says the
operator and the value apart. A form is told here by what it spells (`SortKey.Spells` and the ones after it), whatever
there is between and around the commas, and reading gives that.

A value is a filter to equal only if it is none of the other two forms, so an object may have to be spelled out.

## What is proved

`Params.shorthands_agree`: to spell an order, a selection or a filter of a request in another way changes nothing.
From `Params.sortKeys_of_spells`, `Params.selection_of_spells` and `FilterParam.ofJson_of_spells`, which say what each
form is read as.
-/

namespace TableQuery

open Json Outcome

/-! ## Pieces between commas -/

/-- The pieces of a text between commas, without the empty ones, whatever they are. -/
theorem Params.commaList_join {pieces : List Bytes} (free : ∀ piece ∈ pieces, Ascii.comma ∉ piece) :
    commaList (Bytes.join [Ascii.comma] pieces) = pieces.filter fun piece => !piece.isEmpty := by
  unfold commaList
  cases pieces with
  | nil => rfl
  | cons piece more => rw [Bytes.splitOn_join (List.cons_ne_nil piece more) free]

/-! ## Orders -/

namespace SortKey

variable {k : SortKey} {j : Json}

/-- The field's name, after a minus sign for the descending order. -/
def signed (k : SortKey) : Bytes :=
  match k.direction with
  | .asc => k.field
  | .desc => Ascii.minus :: k.field

/-- A field that a signed text between commas can name. -/
structure Plain (k : SortKey) : Prop where
  filled : k.field ≠ []
  whole : Ascii.comma ∉ k.field
  unsigned : Params.Unsigned k

theorem ofSigned_signed (unsigned : Params.Unsigned k) : ofSigned k.signed = k := by
  obtain ⟨field, direction⟩ := k
  cases direction with
  | asc =>
    show ofSigned field = _
    unfold ofSigned
    rw [SortDirection.ofSigned_of_unsigned unsigned]
  | desc => rfl

theorem Plain.signed_ne_nil (plain : k.Plain) : k.signed ≠ [] := by
  unfold signed
  cases k.direction with
  | asc => exact plain.filled
  | desc => exact List.cons_ne_nil _ _

theorem Plain.comma_not_mem_signed (plain : k.Plain) : Ascii.comma ∉ k.signed := by
  unfold signed
  cases k.direction with
  | asc => exact plain.whole
  | desc =>
    rw [List.mem_cons, not_or]
    exact ⟨by decide, plain.whole⟩

/-- An item of an array spells a sort key: a signed text, or a record with the direction in small letters or
capitals. -/
inductive Spells : Json → SortKey → Prop
  | text (k : SortKey) : Spells (.str k.signed) k
  | record (k : SortKey) {word : Bytes} (means : SortDirection.vocabulary.find? word = some k.direction) :
      Spells (.record [("field", .str k.field), ("direction", .str word)]) k

end SortKey

namespace Params

variable {j : Json} {k : SortKey} {keys : List SortKey} {fields : List Bytes}

theorem sortKey_of_spells (plain : k.Plain) (spells : k.Spells j) : sortKey j = .ok k := by
  cases spells with
  | text =>
    show Except.ok (SortKey.ofSigned k.signed) = _
    rw [SortKey.ofSigned_signed plain.unsigned]
  | @record _ word means =>
    have told : (Json.record [("field", .str k.field), ("direction", .str word)]).Tells _ :=
      tells_record (by simp only [List.map_cons, List.map_nil]; decide)
    change (liftM ((Json.record _).textAt "field") >>= fun field => _ : Outcome SortKey) = _
    refine bind_reading (told.textAt "field" k.field rfl) ?_
    dsimp only
    rw [told.get? "direction" _ rfl]
    refine bind_reading rfl ?_
    rw [means]
    unfold SortKey.ofSigned
    rw [SortDirection.ofSigned_of_unsigned plain.unsigned]
    rfl

/-- A value spells an order: its signed fields in one text with commas, or an array of items that each spell a key. -/
inductive SpellsOrder : Json → List SortKey → Prop
  | text (keys : List SortKey) : SpellsOrder (.str (Bytes.join [Ascii.comma] (keys.map SortKey.signed))) keys
  | array {items : List Json} {keys : List SortKey} (each : List.Forall₂ SortKey.Spells items keys) :
      SpellsOrder (.arr items) keys

theorem sortKeys_of_spells (plain : ∀ k ∈ keys, k.Plain) (spells : SpellsOrder j keys) : sortKeys j = .ok keys := by
  cases spells with
  | text =>
    have free : ∀ piece ∈ keys.map SortKey.signed, Ascii.comma ∉ piece :=
      List.forall_mem_map.mpr fun k mem => (plain k mem).comma_not_mem_signed
    have filled : ∀ piece ∈ keys.map SortKey.signed, (!piece.isEmpty) = true :=
      List.forall_mem_map.mpr fun k mem => by simp [(plain k mem).signed_ne_nil]
    show Except.ok _ = _
    rw [commaList_join free, List.filter_eq_self.mpr filled, List.map_map]
    congr
    exact (List.map_congr_left fun k mem => SortKey.ofSigned_signed (plain k mem).unsigned).trans keys.map_id
  | @array items _ each =>
    show items.mapM sortKey = _
    rw [Checked.mapM_eq_ok]
    induction each with
    | nil => exact .nil
    | cons spells _ ih =>
      rw [List.forall_mem_cons] at plain
      exact .cons (sortKey_of_spells plain.1 spells) (ih plain.2)

/-! ## Selections -/

/-- A value spells a selection: pieces in one text with commas, of which the empty ones do not count, or an array. -/
inductive SpellsSelection : Json → List Bytes → Prop
  | text {pieces : List Bytes} (free : ∀ piece ∈ pieces, Ascii.comma ∉ piece) :
      SpellsSelection (.str (Bytes.join [Ascii.comma] pieces)) (pieces.filter fun piece => !piece.isEmpty)
  | array (fields : List Bytes) : SpellsSelection (.ofTexts fields) fields

theorem selection_of_spells (spells : SpellsSelection j fields) : selection j = .ok fields := by
  cases spells with
  | text free => exact congrArg Except.ok (commaList_join free)
  | array => exact asTexts_ofTexts fields

end Params

/-! ## Filters -/

namespace FilterParam

/-- A value spells a filter: by the operator's name as the only key, by the operator and the value under their own keys,
or, to equal it, as the bare value, if that is not taken for one of the others. -/
inductive Spells : Json → FilterParam → Prop
  | keyed {name : Bytes} {op : Operator} (named : Operator.ofName? name = some op) (value : Json) :
      Spells (.obj [(name, value)]) { op, value }
  | worded {name : Bytes} {op : Operator} (named : Operator.ofName? name = some op) (value : Json) :
      Spells (.record [("op", .str name), ("value", value)]) { op, value }
  | bare {value : Json} (noOp : value.get? "op" = none) (noOperator : value.get? "operator" = none)
      (unkeyed : ∀ name v, value = .obj [(name, v)] → Operator.ofName? name = none) : Spells value { op := .eq, value }

variable {j : Json} {f : FilterParam}

/-- The names of the members that say an operator are none themselves. -/
theorem get?_singleton_of_named {name key : Bytes} {op : Operator} {value : Json}
    (named : Operator.ofName? name = some op) (foreign : Operator.ofName? key = none) :
    (Json.obj [(name, value)]).get? key = none := by
  have other : name ≠ key := by
    rintro rfl
    rw [named] at foreign
    cases foreign
  show Members.find? key [(name, value)] = none
  rw [Members.find?, if_neg other, Members.find?]

theorem ofJson_of_spells (field : Bytes) (spells : Spells j f) : ofJson field j = .ok f := by
  unfold ofJson
  cases spells with
  | @keyed name op named value =>
    rw [get?_singleton_of_named named rfl, get?_singleton_of_named named rfl]
    show Except.ok _ = _
    rw [keyed?, named]
    rfl
  | @worded name op named value =>
    have told : (Json.record [("op", .str name), ("value", value)]).Tells _ :=
      tells_record (by simp only [List.map_cons, List.map_nil]; decide)
    rw [told.get? "op" _ rfl]
    refine bind_reading (a := name) rfl ?_
    rw [named]
    exact bind_reading (told.getOr "value" (some value) rfl .null) rfl
  | @bare value noOp noOperator unkeyed =>
    have none : keyed? j = none := by
      unfold keyed?
      split
      · next name v => rw [unkeyed name v rfl]; rfl
      · rfl
    rw [noOp, noOperator, none]
    rfl

end FilterParam

/-! ## Whole requests -/

namespace Json

/-- Two objects have the same members, but for one. -/
structure AgreeBut (key : Bytes) (j j' : Json) : Prop where
  object : ∃ members, j = .obj members
  object' : ∃ members, j' = .obj members
  others : ∀ other ≠ key, j.get? other = j'.get? other

/-- An object with this member in the place of any other under its key. -/
def withMember (members : List (Bytes × Json)) (key : Bytes) (value : Json) : Json :=
  .obj (Members.insert key value members)

theorem get?_withMember (members : List (Bytes × Json)) (key : Bytes) (value : Json) :
    (withMember members key value).get? key = some value :=
  (Members.find?_insert key key value members).trans (if_pos rfl)

theorem agreeBut_withMember (members : List (Bytes × Json)) (key : Bytes) (value value' : Json) :
    AgreeBut key (withMember members key value) (withMember members key value') where
  object := ⟨_, rfl⟩
  object' := ⟨_, rfl⟩
  others other ne := by
    have absent (value : Json) : (withMember members key value).get? other = Members.find? other members :=
      (Members.find?_insert key other value members).trans (if_neg ne.symm)
    rw [absent, absent]

namespace AgreeBut

variable {key other : Bytes} {j j' : Json} (agree : AgreeBut key j j') (ne : other ≠ key)
include agree ne

theorem getOr (default : Json) : j.getOr other default = j'.getOr other default := by
  have same := agree.others other ne
  obtain ⟨⟨members, rfl⟩, ⟨members', rfl⟩, -⟩ := agree
  exact congrArg (fun value => Except.ok (Option.getD value default)) same

theorem readOr {α : Type} (read : Json → Reading α) (default : α) :
    j.readOr read other default = j'.readOr read other default := by
  have same := agree.others other ne
  obtain ⟨⟨members, rfl⟩, ⟨members', rfl⟩, -⟩ := agree
  unfold Json.get? at same
  unfold Json.readOr
  dsimp only at same ⊢
  rw [same]

theorem elemsOr : j.elemsOr other = j'.elemsOr other := by
  unfold Json.elemsOr
  rw [agree.getOr ne]

theorem has : j.has other = j'.has other := congrArg Option.isSome (agree.others other ne)

end AgreeBut

end Json

namespace Params

variable {j j' : Json} {key : Bytes}

section Others

variable (agree : AgreeBut key j j')
include agree

theorem integer?_of_agree {other : Bytes} (ne : other ≠ key) : integer? j other = integer? j' other := by
  unfold integer?
  rw [agree.others other ne]

theorem looseText?_of_agree {other : Bytes} (ne : other ≠ key) : looseText? j other = looseText? j' other := by
  unfold looseText?
  rw [agree.others other ne]

theorem pageSize_of_agree (ne : key ≠ "page_size") (ne' : key ≠ "pageSize") :
    integer? j (if j.has "page_size" then "page_size" else "pageSize")
      = integer? j' (if j'.has "page_size" then "page_size" else "pageSize") := by
  rw [agree.has ne.symm]
  split_ifs
  · exact integer?_of_agree agree ne.symm
  · exact integer?_of_agree agree ne'.symm

end Others

/-- A request with an order is the one without it, and the order. -/
theorem read_of_order {keys : List SortKey} (agree : AgreeBut "sort" j j')
    (order : (j.get? "sort").elim (.ok []) sortKeys = .ok keys)
    (without : (j'.get? "sort").elim (.ok []) sortKeys = .ok []) :
    read j = (fun p => { p with sort := keys }) <$> read j' := by
  rw [read_eq, read_eq, order, without, agree.others "filters" (by decide), agree.elemsOr (by decide),
    integer?_of_agree agree (by decide), pageSize_of_agree agree (by decide) (by decide),
    agree.others "select" (by decide), Json.boolOr, agree.readOr (by decide), looseText?_of_agree agree (by decide),
    looseText?_of_agree agree (by decide)]
  simp only [map_bind, map_pure]
  rfl

/-- A request with a selection is the one without it, and the selection. -/
theorem read_of_selection {fields : List Bytes} (agree : AgreeBut "select" j j')
    (choice : (j.get? "select").elim (.ok []) selection = .ok fields)
    (without : (j'.get? "select").elim (.ok []) selection = .ok []) :
    read j = (fun p => { p with select := fields }) <$> read j' := by
  have lifted {j : Json} {fields : List Bytes} (read : (j.get? "select").elim (.ok []) selection = .ok fields) :
      ((j.get? "select").elim (.ok []) fun fields => selection fields : Outcome (List Bytes)) = .ok fields := by
    cases given : j.get? "select" with
    | none =>
      rw [given] at read
      cases read
      rfl
    | some value =>
      rw [given] at read
      exact reading_of_ok read
  rw [read_eq, read_eq, lifted choice, lifted without, agree.others "filters" (by decide), agree.elemsOr (by decide),
    integer?_of_agree agree (by decide), pageSize_of_agree agree (by decide) (by decide),
    agree.others "sort" (by decide), Json.boolOr, agree.readOr (by decide), looseText?_of_agree agree (by decide),
    looseText?_of_agree agree (by decide)]
  simp only [map_bind, map_pure]
  rfl

/-- Requests with the same filters and the same other members are the same. -/
theorem read_of_filters (agree : AgreeBut "filters" j j')
    (filters : (j.get? "filters").elim (.ok []) (fun filters => filters.items.mapM readFilter)
      = (j'.get? "filters").elim (.ok []) fun filters => filters.items.mapM readFilter) : read j = read j' := by
  rw [read_eq, read_eq, filters, agree.elemsOr (by decide), integer?_of_agree agree (by decide),
    pageSize_of_agree agree (by decide) (by decide), agree.others "sort" (by decide),
    agree.others "select" (by decide), Json.boolOr, agree.readOr (by decide), looseText?_of_agree agree (by decide),
    looseText?_of_agree agree (by decide)]
  rfl

theorem ofJson_of_read {change : Params → Params} (same : read j = change <$> read j') :
    ofJson j = (ofJson j').map change := by
  unfold ofJson
  rw [same]
  cases read j' with
  | ok p => rfl
  | error failure => cases failure <;> rfl

/-! ## Filters among others -/

variable {filters : List (Bytes × Json)} {field : Bytes} {entry entry' : Json} {f : FilterParam}

/-- The entry of a field may be spelled in another way among the entries of the others. -/
theorem mapM_readFilter_insert (same : FilterParam.ofJson field entry = FilterParam.ofJson field entry') :
    (Members.insert field entry filters).mapM readFilter = (Members.insert field entry' filters).mapM readFilter := by
  have head : readFilter (field, entry) = readFilter (field, entry') := congrArg (· >>= _) same
  induction filters with
  | nil => simp only [Members.insert, List.mapM_cons, head]
  | cons first others ih =>
    obtain ⟨name, value⟩ := first
    unfold Members.insert
    split_ifs with replaced below
    · simp only [List.mapM_cons, head]
    · simp only [List.mapM_cons, head]
    · simp only [List.mapM_cons, ih]

/-- Filters are found under the names of their entries, as what these are read as. -/
theorem find?_of_mapM_readFilter {found : List (Bytes × FilterParam)} (read : filters.mapM readFilter = .ok found)
    (given : Members.find? field filters = some entry) (means : FilterParam.ofJson field entry = .ok f) :
    Members.find? field found = some f := by
  rw [Checked.mapM_eq_ok] at read
  induction read with
  | nil => cases given
  | @cons item filter items others step _ ih =>
    obtain ⟨name, value⟩ := item
    obtain ⟨param, made, result⟩ := Checked.bind_eq_ok.mp step
    cases result
    rw [Members.find?] at given ⊢
    split_ifs at given ⊢ with here
    · cases given
      cases here
      exact congrArg some (Except.ok.inj (made.symm.trans means))
    · exact ih given

/-! ## The same request -/

/-- Every text has pieces between commas. To spell the order or the selection of a request in some way gives the same
as without one, but with what was spelled; a filter may be spelled in either of two ways for its field. What else the
request has may be read or refused. -/
theorem shorthands_agree (members : List (Bytes × Json)) :
    (∀ order keys, SpellsOrder order keys → (∀ k ∈ keys, k.Plain) →
      ofJson (withMember members "sort" order)
        = (ofJson (withMember members "sort" (.arr []))).map fun p => { p with sort := keys })
    ∧ (∀ choice fields, SpellsSelection choice fields →
      ofJson (withMember members "select" choice)
        = (ofJson (withMember members "select" (.arr []))).map fun p => { p with select := fields })
    ∧ (∀ text, ∃ pieces, text = Bytes.join [Ascii.comma] pieces ∧ ∀ piece ∈ pieces, Ascii.comma ∉ piece)
    ∧ ∀ filters field entry entry' f, FilterParam.Spells entry f → FilterParam.Spells entry' f →
      ofJson (withMember members "filters" (withMember filters field entry))
          = ofJson (withMember members "filters" (withMember filters field entry'))
        ∧ ∀ p, ofJson (withMember members "filters" (withMember filters field entry)) = .ok p →
          Members.find? field p.filters = some f := by
  refine ⟨fun order keys spells plain => ?order, fun choice fields spells => ?choice, fun text => ?pieces,
    fun filters field entry entry' f spells spells' => ⟨?same, fun p read => ?found⟩⟩
  case order =>
    refine ofJson_of_read (read_of_order (agreeBut_withMember members _ _ _) ?_ ?_)
    · rw [get?_withMember]
      exact sortKeys_of_spells plain spells
    · rw [get?_withMember]
      rfl
  case choice =>
    refine ofJson_of_read (read_of_selection (agreeBut_withMember members _ _ _) ?_ ?_)
    · rw [get?_withMember]
      exact selection_of_spells spells
    · rw [get?_withMember]
      rfl
  case pieces =>
    obtain ⟨free, joined⟩ := Bytes.splitOn_spec Ascii.comma text
    exact ⟨_, joined.symm, free⟩
  case same =>
    have same := (FilterParam.ofJson_of_spells field spells).trans (FilterParam.ofJson_of_spells field spells').symm
    refine congrArg (·.wordMismatch malformed) (read_of_filters (agreeBut_withMember members _ _ _) ?_)
    rw [get?_withMember, get?_withMember]
    exact mapM_readFilter_insert same
  case found =>
    have filters := filters_of_read _ p (Checked.wordMismatch_eq_ok.mp read)
    rw [get?_withMember] at filters
    exact find?_of_mapM_readFilter filters (get?_withMember _ field entry) (FilterParam.ofJson_of_spells field spells)

/-- An order of two keys in two forms, a selection with commas too many, and a filter with its operator for a key. -/
theorem shorthands_agree_page :
    let page (key : Bytes) (value : Json) : Json := withMember [("page", .int 2)] key value
    let keys : List SortKey := [⟨"total", .desc⟩, ⟨"id", .asc⟩]
    ofJson (page "sort" (.str "-total,id")) = .ok { page := some 2, sort := keys }
      ∧ ofJson (page "sort" (.arr [.str "-total", .record [("field", .str "id"), ("direction", .str "ASC")]]))
        = .ok { page := some 2, sort := keys }
      ∧ ofJson (page "select" (.str ",id,,total")) = .ok { page := some 2, select := ["id", "total"] }
      ∧ ofJson (page "filters" (withMember [] "total" (.obj [("gte", .int 3)])))
        = ofJson (page "filters" (withMember [] "total" (.record [("op", .str "gte"), ("value", .int 3)]))) := by
  intro page keys
  obtain ⟨orders, selections, -, filters⟩ := shorthands_agree [("page", .int 2)]
  have plain : ∀ k ∈ keys, k.Plain := by
    rw [List.forall_mem_cons, List.forall_mem_singleton]
    exact ⟨⟨by decide, by decide, by decide⟩, ⟨by decide, by decide, by decide⟩⟩
  have array : SpellsOrder (.arr [.str "-total", .record [("field", .str "id"), ("direction", .str "ASC")]]) keys :=
    .array (.cons (.text ⟨"total", .desc⟩) (.cons (.record ⟨"id", .asc⟩ rfl) .nil))
  have free : ∀ piece ∈ ([[], "id", [], "total"] : List Bytes), Ascii.comma ∉ piece := by decide
  have pieces : SpellsSelection (.str ",id,,total") ["id", "total"] := .text free
  refine ⟨(orders _ keys (.text keys) plain).trans rfl, (orders _ keys array plain).trans rfl,
    (selections _ _ pieces).trans rfl, ?_⟩
  exact (filters [] "total" _ _ _ (.keyed rfl _) (.worded rfl _)).1

end Params

end TableQuery

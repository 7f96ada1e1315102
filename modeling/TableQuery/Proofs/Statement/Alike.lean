import TableQuery.Proofs.Request.Cursor
import TableQuery.Proofs.Request.Value
import TableQuery.Proofs.Sql.Alike
import TableQuery.Proofs.Statement.Compiled

/-!
# Requests that differ in their values

Two requests are alike if they ask for the same, with other values: they filter the same fields by the same
operators in the same trees, and each pair of values agrees on what an operator looks at, whether it is null and how
long a list it is. Where a field takes date presets, two values agree on being the preset without a range or one
that has a range. Search terms agree on being blank, and cursor tokens on which keys of the order they have a value
for and on which of these values are null. Contexts may differ in the tenant.

The values of requests that are alike are bound, and their text is the same.

## What is proved

`Table.text_of_alike`: the statements that answer two such requests have the same text, byte by byte, and bind
equally many values. The requests may be answered on different days.
-/

namespace TableQuery

variable {r : Resolver} {limits : Limits} {day day' : Day}

/-! ## Checked values -/

namespace Limits

/-- A checked value is no null, and a list only if it was one. -/
theorem of_checkScalar {type : ColumnType} {v w : Json} (h : limits.checkScalar type v = .ok w) :
    w.isNull = false ∧ ∀ ws, w = .arr ws → v = w := by
  obtain ⟨normal, same⟩ := normal_of_checkScalar h
  refine ⟨normal.isNull, ?_⟩
  rintro ws rfl
  cases normal with
  | json _ => exact same rfl

theorem alike_checkScalar {type : ColumnType} {v w v' w' : Json} (values : v.Alike w)
    (hv : limits.checkScalar type v = .ok v') (hw : limits.checkScalar type w = .ok w') : v'.Alike w' where
  null := by rw [(of_checkScalar hv).1, (of_checkScalar hw).1]
  length := by
    rintro vs ws rfl rfl
    exact values.length vs ws ((of_checkScalar hv).2 vs rfl) ((of_checkScalar hw).2 ws rfl)

/-- What a check makes of two values for one operator agrees as the values do. -/
theorem alike_checkValue {field : Bytes} {type : ColumnType} {op : Operator} {v w v' w' : Json}
    (values : v.Alike w) (hv : limits.checkValue field type op v = .ok v')
    (hw : limits.checkValue field type op w = .ok w') : v'.Alike w' := by
  have element (hv : limits.checkElement field type v = .ok v') (hw : limits.checkElement field type w = .ok w') :
      v'.Alike w' :=
    alike_checkScalar values (Checked.mapError_eq_ok.mp hv) (Checked.mapError_eq_ok.mp hw)
  unfold checkValue at hv hw
  cases op with
  | isNull | isNotNull =>
    cases hv
    cases hw
    exact .refl _
  | isIn | notIn | between =>
    obtain ⟨vs, vs', rfl, rfl, elements, -⟩ := checkArray_eq_ok.mp hv
    obtain ⟨ws, ws', rfl, rfl, elements', -⟩ := checkArray_eq_ok.mp hw
    have long := (Checked.mapM_eq_ok.mp elements).length_eq
    have long' := (Checked.mapM_eq_ok.mp elements').length_eq
    refine ⟨rfl, ?_⟩
    rintro _ _ ⟨⟩ ⟨⟩
    rw [← long, ← long', values.length vs ws rfl rfl]
  | like | ilike | contains | startsWith | endsWith =>
    exact alike_checkScalar values (Checked.mapError_eq_ok.mp hv) (Checked.mapError_eq_ok.mp hw)
  | eq | neq =>
    dsimp only at hv hw
    rw [values.null] at hv
    split_ifs at hv hw
    · cases hv
      cases hw
      exact .refl _
    · exact element hv hw
  | gt | gte | lt | lte =>
    dsimp only at hv hw
    split_ifs at hv hw
    exact element hv hw

end Limits

/-! ## Conditions -/

/-- Two presets that agree on having a range give the same text, whatever the days are. -/
theorem DatePreset.alike_toSql {p q : DatePreset} (same : (p == .custom) = (q == .custom)) (day day' : Day)
    (column : Fragment) : (p.toSql day column).Alike (q.toSql day' column) := by
  have custom : p.rangeOn day = none ↔ q.rangeOn day' = none := by
    rw [Condition.rangeOn_eq_none, Condition.rangeOn_eq_none, ← beq_iff_eq, same, beq_iff_eq]
  unfold toSql
  cases hp : p.rangeOn day with
  | none =>
    rw [custom.mp hp]
    exact .refl _
  | some range =>
    cases hq : q.rangeOn day' with
    | none =>
      rw [custom.mpr hq] at hp
      cases hp
    | some range' =>
      exact .all (.cons (Operator.alike_binary column ">=" _ _)
        (.cons (Operator.alike_binary column "<" _ _) .nil))

/-- Two conditions that compare the same field by the same operator, with values that agree. -/
structure Condition.Alike (r : Resolver) (a b : Condition) : Prop where
  field : a.field = b.field
  op : a.op = b.op
  value : a.value.Alike b.value
  /-- Where the field takes presets, both values name the one without a range, or both one with a range, or both
  none. -/
  preset : ∀ f, r.resolve a.field = some f →
    (r.preset? f a.value).map (· == .custom) = (r.preset? f b.value).map (· == .custom)

namespace Condition

variable {a b : Condition} {f g : Fragment}

theorem Alike.refl (r : Resolver) (a : Condition) : Alike r a a := ⟨rfl, rfl, .refl _, fun _ _ => rfl⟩

/-- What a leaf makes of two values is alike, by presets or by the operator. -/
theorem Alike.of_becomes (h : a.Alike r b) {field : Field} (found : r.resolve a.field = some field)
    {bound bound' : Checked Json} (values : ∀ v w, bound = .ok v → bound' = .ok w → v.Alike w)
    (ha : a.Becomes r day field bound f) (hb : b.Becomes r day' field bound' g) : f.Alike g := by
  have presets := h.preset field found
  cases ha with
  | preset p named made =>
    cases hb with
    | preset q named' made' =>
      subst made made'
      rw [named, named'] at presets
      exact DatePreset.alike_toSql (Option.some.inj presets) day day' _
    | comparison _ plain _ _ =>
      rw [named, plain] at presets
      cases presets
  | comparison v plain ok applied =>
    cases hb with
    | preset q named _ =>
      rw [plain, named] at presets
      cases presets
    | comparison w _ ok' applied' =>
      rw [← h.op] at applied'
      exact Operator.alike_apply (values v w ok ok') applied applied'

theorem alike_ofRequest (h : a.Alike r b) (ha : a.ofRequest r limits day = .ok f)
    (hb : b.ofRequest r limits day' = .ok g) : f.Alike g := by
  rcases ofRequest_eq_ok ha with ⟨unknown, rfl⟩ | ⟨field, found, -, becomes⟩
  · rcases ofRequest_eq_ok hb with ⟨-, rfl⟩ | ⟨field, found, -⟩
    · exact .refl _
    · rw [← h.field, unknown] at found
      cases found
  · rcases ofRequest_eq_ok hb with ⟨unknown, -⟩ | ⟨field', found', -, becomes'⟩
    · rw [← h.field, found] at unknown
      cases unknown
    · rw [← h.field, found] at found'
      cases found'
      refine h.of_becomes found (fun v w ok ok' => ?_) becomes becomes'
      rw [boundValue, ← h.op] at ok'
      exact Limits.alike_checkValue h.value ok ok'

theorem alike_ofDescription (ha : a.ofDescription r day = .ok f) (hb : a.ofDescription r day' = .ok g) :
    f.Alike g := by
  obtain ⟨field, found, becomes⟩ := ofDescription_eq_ok ha
  obtain ⟨_, found', becomes'⟩ := ofDescription_eq_ok hb
  rw [found] at found'
  cases found'
  refine (Alike.refl r a).of_becomes found ?_ becomes becomes'
  rintro v w ⟨⟩ ⟨⟩
  exact .refl _

end Condition

/-! ## Trees -/

namespace FilterTree

/-- Trees of one shape, whose leaves are related one by one. -/
inductive SameShape (R : Condition → Condition → Prop) : List FilterTree → List FilterTree → Prop where
  | nil : SameShape R [] []
  | leaf {a b : Condition} {trees trees' : List FilterTree} (related : R a b) (rest : SameShape R trees trees') :
      SameShape R (.leaf a :: trees) (.leaf b :: trees')
  | group (op : LogicalOp) {children children' trees trees' : List FilterTree}
      (inside : SameShape R children children') (rest : SameShape R trees trees') :
      SameShape R (.group op children :: trees) (.group op children' :: trees')

theorem SameShape.refl : ∀ trees : List FilterTree, SameShape Eq trees trees
  | [] => .nil
  | .leaf _ :: trees => .leaf rfl (refl trees)
  | .group op children :: trees => .group op (refl children) (refl trees)

/-- Trees of one shape give alike conditions, if their leaves do. -/
theorem SameShape.alike_listToSql {R : Condition → Condition → Prop} {toSql toSql' : Condition → Checked Fragment}
    (leaves : ∀ a b f g, R a b → toSql a = .ok f → toSql' b = .ok g → f.Alike g)
    {trees trees' : List FilterTree} (h : SameShape R trees trees') {fs gs : List Fragment}
    (hfs : listToSql toSql trees = .ok fs) (hgs : listToSql toSql' trees' = .ok gs) :
    List.Forall₂ Fragment.Alike fs gs := by
  induction h generalizing fs gs with
  | nil =>
    rw [listToSql] at hfs hgs
    cases hfs
    cases hgs
    exact .nil
  | leaf related _ ih =>
    obtain ⟨f, parts, hf, hparts, rfl⟩ := listToSql_cons_eq_ok hfs
    obtain ⟨g, parts', hg, hparts', rfl⟩ := listToSql_cons_eq_ok hgs
    rw [FilterTree.toSql] at hf hg
    exact .cons (leaves _ _ f g related hf hg) (ih hparts hparts')
  | group op _ _ inside rest =>
    obtain ⟨f, parts, hf, hparts, rfl⟩ := listToSql_cons_eq_ok hfs
    obtain ⟨g, parts', hg, hparts', rfl⟩ := listToSql_cons_eq_ok hgs
    refine .cons ?_ (rest hparts hparts')
    rw [FilterTree.toSql] at hf hg
    obtain ⟨own, hown, hf⟩ := Checked.bind_eq_ok.mp hf
    obtain ⟨own', hown', hg⟩ := Checked.bind_eq_ok.mp hg
    cases hf
    cases hg
    cases op with
    | and => exact .all (inside hown hown')
    | or => exact .any (inside hown hown')

end FilterTree

/-! ## The parts of a condition -/

namespace Context

/-- Two contexts that differ in the tenant only, which is present in both or in neither. -/
structure Alike (c c' : Context) : Prop where
  tenant : c.tenantId.isSome = c'.tenantId.isSome
  user : c.user = c'.user
  parameters : c.parameters = c'.parameters
  now : c.now = c'.now

/-- A reference finds the same in both contexts, or the tenant's text in each. -/
theorem Alike.lookup {c c' : Context} (h : c.Alike c') (reference : Bytes) :
    c.lookup reference = c'.lookup reference
      ∨ ∃ id id', c.lookup reference = some (.str id) ∧ c'.lookup reference = some (.str id') := by
  have path (path : Bytes) : c.lookupPath path = c'.lookupPath path
      ∨ ∃ id id', c.lookupPath path = some (.str id) ∧ c'.lookupPath path = some (.str id') := by
    unfold lookupPath
    rw [h.user, h.parameters]
    dsimp only
    by_cases asked : path = Bytes.ofString "tenantId" ∨ path = Bytes.ofString "tenant_id"
    · rw [if_pos asked, if_pos asked]
      have tenant := h.tenant
      cases hc : c.tenantId with
      | none =>
        rw [hc, Option.isSome_none, eq_comm, Option.isSome_eq_false_iff, Option.isNone_iff_eq_none] at tenant
        rw [tenant]
        exact .inl rfl
      | some id =>
        rw [hc, Option.isSome_some, eq_comm, Option.isSome_iff_exists] at tenant
        obtain ⟨id', hid'⟩ := tenant
        rw [hid']
        exact .inr ⟨id, id', rfl, rfl⟩
    · rw [if_neg asked, if_neg asked]
      exact .inl rfl
  unfold Context.lookup
  split
  · exact path _
  · exact .inl rfl

theorem Alike.replaced {c c' : Context} (h : c.Alike c') (value : Json) :
    c.replaced value = c'.replaced value
      ∨ ∃ id id', c.replaced value = some (.str id) ∧ c'.replaced value = some (.str id') := by
  unfold Context.replaced
  cases reference? value with
  | none => exact .inl rfl
  | some path =>
    dsimp only
    rcases h.lookup path with same | ⟨id, id', found, found'⟩
    · rw [same]
      exact .inl rfl
    · rw [found, found']
      exact .inr ⟨id, id', rfl, rfl⟩

end Context

namespace Resolver

variable {f g : Fragment} {c c' : Context}

theorem alike_backendCondition (contexts : c.Alike c') {b : Condition} (hf : r.backendCondition c b = .ok f)
    (hg : r.backendCondition c' b = .ok g) : f.Alike g := by
  rw [backendCondition_eq] at hf hg
  obtain ⟨field, hfield, hf⟩ := Checked.bind_eq_ok.mp hf
  obtain ⟨_, hfield', hg⟩ := Checked.bind_eq_ok.mp hg
  rw [hfield] at hfield'
  cases hfield'
  rcases contexts.replaced b.value with same | ⟨id, id', value, value'⟩
  · rw [← same] at hg
    cases replaced : c.replaced b.value with
    | none =>
      rw [replaced] at hf hg
      cases hf
      cases hg
      exact .refl _
    | some v =>
      rw [replaced] at hf hg
      exact Operator.alike_apply (.refl v) hf hg
  · rw [value] at hf
    rw [value'] at hg
    exact Operator.alike_apply (Json.alike_str id id') hf hg

theorem alike_tenant (hf : r.tenant c = .ok f) (hg : r.tenant c' = .ok g) : f.Alike g := by
  rcases tenant_eq_ok hf with ⟨off, rfl⟩ | ⟨on, id, field, -, found, applied⟩
  · rcases tenant_eq_ok hg with ⟨-, rfl⟩ | ⟨on, -⟩
    · exact .refl _
    · rw [off] at on
      cases on
  · rcases tenant_eq_ok hg with ⟨off, -⟩ | ⟨-, id', _, -, found', applied'⟩
    · rw [off] at on
      cases on
    · rw [found] at found'
      cases found'
      exact Operator.alike_apply (Json.alike_str id id') applied applied'

theorem alike_scope (contexts : c.Alike c') {includeDeleted : Bool} (hf : r.scope c includeDeleted = .ok f)
    (hg : r.scope c' includeDeleted = .ok g) : f.Alike g := by
  obtain ⟨backend, deleted, tenant, hbackend, hdeleted, htenant, rfl⟩ := scope_eq_ok hf
  obtain ⟨backend', deleted', tenant', hbackend', hdeleted', htenant', rfl⟩ := scope_eq_ok hg
  rw [hdeleted] at hdeleted'
  cases hdeleted'
  have backends : backend.Alike backend' := by
    unfold backendConditions at hbackend hbackend'
    obtain ⟨parts, hparts, eq⟩ := Checked.bind_eq_ok.mp hbackend
    cases eq
    obtain ⟨parts', hparts', eq⟩ := Checked.bind_eq_ok.mp hbackend'
    cases eq
    have same : List.Forall₂ Eq r.table.backendConditions _ := List.forall₂_same.mpr fun _ _ => rfl
    refine .all (Checked.forall₂_mapM same ?_ hparts hparts')
    rintro b _ f g rfl hf hg
    exact alike_backendCondition contexts hf hg
  exact .all (.cons backends (.cons (.refl _) (.cons (alike_tenant htenant htenant') .nil)))

theorem alike_staticFilters (hf : r.staticFilters day = .ok f) (hg : r.staticFilters day' = .ok g) : f.Alike g := by
  unfold staticFilters at hf hg
  obtain ⟨parts, hparts, eq⟩ := Checked.bind_eq_ok.mp hf
  cases eq
  obtain ⟨parts', hparts', eq⟩ := Checked.bind_eq_ok.mp hg
  cases eq
  have same : List.Forall₂ Eq (r.table.filters.filter fun f => f.kind == .static) _ :=
    List.forall₂_same.mpr fun _ _ => rfl
  refine .all (Checked.forall₂_mapM same ?_ hparts hparts')
  rintro a _ f g rfl hf hg
  exact Condition.alike_ofDescription hf hg

theorem alike_configuredGroups (hf : r.configuredGroups day = .ok f) (hg : r.configuredGroups day' = .ok g) :
    f.Alike g := by
  unfold configuredGroups at hf hg
  obtain ⟨parts, hparts, eq⟩ := Checked.bind_eq_ok.mp hf
  cases eq
  obtain ⟨parts', hparts', eq⟩ := Checked.bind_eq_ok.mp hg
  cases eq
  refine .all ((FilterTree.SameShape.refl r.table.filterGroups).alike_listToSql ?_ hparts hparts')
  rintro a _ f g rfl hf hg
  exact Condition.alike_ofDescription hf hg

/-! ## What a request adds -/

/-- The condition that a filter of a request stands for. -/
def filterCondition (filter : Bytes × FilterParam) : Condition :=
  { field := filter.1, op := filter.2.op, value := filter.2.value }

theorem alike_requestFilters {filters filters' : List (Bytes × FilterParam)}
    (h : List.Forall₂ (fun a b => (filterCondition a).Alike r (filterCondition b)) filters filters')
    (hf : r.requestFilters limits day filters = .ok f) (hg : r.requestFilters limits day' filters' = .ok g) :
    f.Alike g := by
  unfold requestFilters at hf hg
  obtain ⟨parts, hparts, eq⟩ := Checked.bind_eq_ok.mp hf
  cases eq
  obtain ⟨parts', hparts', eq⟩ := Checked.bind_eq_ok.mp hg
  cases eq
  exact .all (Checked.forall₂_mapM h (fun _ _ _ _ alike => Condition.alike_ofRequest alike) hparts hparts')

theorem alike_requestGroups {trees trees' : List FilterTree}
    (h : FilterTree.SameShape (Condition.Alike r) trees trees')
    (hf : r.requestGroups limits day trees = .ok f) (hg : r.requestGroups limits day' trees' = .ok g) :
    f.Alike g := by
  unfold requestGroups at hf hg
  obtain ⟨parts, hparts, eq⟩ := Checked.bind_eq_ok.mp hf
  cases eq
  obtain ⟨parts', hparts', eq⟩ := Checked.bind_eq_ok.mp hg
  cases eq
  exact .all (h.alike_listToSql (fun _ _ _ _ alike => Condition.alike_ofRequest alike) hparts hparts')

/-- The term that a request searches for, without blanks around it; no term is a blank one. -/
def searchTerm (asked : Option Bytes) : Bytes := Bytes.trim Ascii.isSpace (asked.getD [])

/-- The condition of a search, by the term without blanks around it. -/
def searchFor (r : Resolver) (term : Bytes) : Checked Fragment :=
  match r.table.search with
  | none => .ok .empty
  | some s =>
    if !s.enabled || s.fields.isEmpty then .ok .empty
    else if term.isEmpty || (r.searchFields s).isEmpty then .ok .empty
    else if s.fullText then r.fullText s.language term (r.searchFields s)
    else do
      return Fragment.any (← (r.searchFields s).mapM fun f =>
        Operator.contains.apply (r.textOf f) (.str term) r.dialect f.name)

theorem searchFor_of_search {asked : Option Bytes} (h : r.search limits asked = .ok f) :
    r.searchFor (searchTerm asked) = .ok f := by
  unfold search at h
  unfold searchFor
  cases asked with
  | none =>
    cases h
    have blank : (searchTerm none).isEmpty = true := rfl
    cases r.table.search with
    | none => rfl
    | some s =>
      dsimp only
      rw [blank, Bool.true_or, if_pos rfl]
      split_ifs <;> rfl
  | some word =>
    cases described : r.table.search with
    | none =>
      rw [described] at h
      exact h
    | some s =>
      rw [described] at h
      dsimp only at h ⊢
      by_cases off : (!s.enabled || s.fields.isEmpty) = true
      · rw [if_pos off] at h ⊢
        exact h
      · rw [if_neg off] at h ⊢
        obtain ⟨term, checked, h⟩ := Checked.bind_eq_ok.mp h
        have trimmed : term = searchTerm (some word) := by
          unfold Limits.checkSearchTerm at checked
          dsimp only at checked
          split_ifs at checked
          cases checked
          rfl
        rw [← trimmed]
        exact h

theorem alike_fullText {language term term' : Bytes} {fields : List Field}
    (hf : r.fullText language term fields = .ok f) (hg : r.fullText language term' fields = .ok g) : f.Alike g := by
  unfold fullText at hf hg
  obtain ⟨-, -, hf⟩ := Checked.bind_eq_ok.mp hf
  obtain ⟨-, -, hg⟩ := Checked.bind_eq_ok.mp hg
  cases hf
  cases hg
  exact ((Fragment.Alike.refl _).bind _ _).add ")"

theorem alike_searchFor {term term' : Bytes} (blank : term.isEmpty = term'.isEmpty)
    (hf : r.searchFor term = .ok f) (hg : r.searchFor term' = .ok g) : f.Alike g := by
  unfold searchFor at hf hg
  rw [← blank] at hg
  cases described : r.table.search with
  | none =>
    rw [described] at hf hg
    cases hf
    cases hg
    exact .refl _
  | some s =>
    rw [described] at hf hg
    dsimp only at hf hg
    split_ifs at hf hg
    · cases hf
      cases hg
      exact .refl _
    · cases hf
      cases hg
      exact .refl _
    · exact alike_fullText hf hg
    · obtain ⟨parts, hparts, eq⟩ := Checked.bind_eq_ok.mp hf
      cases eq
      obtain ⟨parts', hparts', eq⟩ := Checked.bind_eq_ok.mp hg
      cases eq
      have same : List.Forall₂ Eq (r.searchFields s) _ := List.forall₂_same.mpr fun _ _ => rfl
      refine .any (Checked.forall₂_mapM same ?_ hparts hparts')
      rintro field _ f g rfl hf hg
      exact Operator.alike_apply (Json.alike_str term term') hf hg

end Resolver

/-! ## Continuations -/

namespace Keyset

/-- The boundary that a page goes on after; null, which has a value for no key, on the first page. -/
def boundaryAfter (cursor : Option Bytes) : Json :=
  if (cursor.getD []).isEmpty then .null else (Cursor.decode (cursor.getD [])).getD .null

/-- A page goes on after the boundary that its token was made of. -/
theorem boundaryAfter_encode {boundary : Json} (object : boundary.isObj = true)
    (survives : Json.parse? boundary.compact = some boundary) :
    boundaryAfter (some (Cursor.encode boundary)) = boundary := by
  have decoded := Cursor.decode_encode object survives
  unfold boundaryAfter
  rw [Option.getD_some, if_neg, decoded, Option.getD_some]
  intro empty
  rw [List.isEmpty_iff.mp empty] at decoded
  cases decoded

theorem keysOf_null (order : List OrderTerm) : keysOf order .null = [] := by
  unfold keysOf
  rw [List.filterMap_eq_nil_iff]
  exact fun _ _ => rfl

/-- A page goes on after the boundary of its token, and its length does not depend on the token. -/
theorem page_of_ofRequest {cursor : Option Bytes} {pageSize : Option Int64} {requested : List SortKey} {k : Keyset}
    (h : ofRequest r cursor pageSize requested = .ok k) :
    k.continuation = continuationAfter r.dialect k.order (boundaryAfter cursor)
      ∧ k.fetchLimit = r.table.pagination.clampSize pageSize + 1 := by
  refine ⟨?_, (sizes_of_ofRequest h).2.trans (by rw [(sizes_of_ofRequest h).1])⟩
  unfold boundaryAfter
  obtain ⟨order, continuation, -, ⟨first, rfl⟩ | ⟨later, boundary, decoded, rfl⟩, rfl⟩ := ofRequest_eq_ok h
  · rw [if_pos first]
    unfold continuationAfter
    rw [keysOf_null]
    rfl
  · rw [if_neg (Bool.eq_false_iff.mp later), decoded]
    rfl

/-- Two keys of one term, whose values are both null or both not. -/
structure Key.Alike (k l : Key) : Prop where
  term : k.term = l.term
  null : k.value.isNull = l.value.isNull

namespace Key.Alike

variable {k l : Key} {d : Dialect}

theorem equal (h : k.Alike l) : k.equal.Alike l.equal := by
  unfold Key.equal
  rw [h.term, h.null]
  split_ifs
  · exact .refl _
  · exact Operator.alike_binary _ _ _ _

/-- A row comes after both values of a key by alike conditions, or after neither. -/
theorem after? (h : k.Alike l) : Option.Rel Fragment.Alike (k.after? d) (l.after? d) := by
  unfold Key.after?
  rw [h.term, h.null]
  dsimp only
  split_ifs
  · exact .some (.refl _)
  · exact .none
  all_goals
    first
    | exact .some (.any (.cons (Operator.alike_binary _ _ _ _) (.cons (.refl _) .nil)))
    | exact .some (Operator.alike_binary _ _ _ _)

end Key.Alike

theorem alike_branches {d : Dialect} {keys keys' : List Key} (h : List.Forall₂ Key.Alike keys keys')
    {equalities equalities' : List Fragment} (before : List.Forall₂ Fragment.Alike equalities equalities') :
    List.Forall₂ Fragment.Alike (branches d equalities keys) (branches d equalities' keys') := by
  induction h generalizing equalities equalities' with
  | nil => exact .nil
  | @cons k l rest rest' head _ ih =>
    have more := ih (List.rel_append before (.cons head.equal .nil))
    rw [branches, branches]
    have after := head.after? (d := d)
    cases hk : k.after? d with
    | none =>
      rw [hk] at after
      cases hl : l.after? d with
      | none => exact more
      | some g =>
        rw [hl] at after
        cases after
    | some f =>
      rw [hk] at after
      cases hl : l.after? d with
      | none =>
        rw [hl] at after
        cases after
      | some g =>
        rw [hl] at after
        cases after with
        | some alike => exact .cons (.all (List.rel_append before (.cons alike .nil))) more

/-- Two boundaries agree on a key: both have a value for it or neither, and both values are null or neither. -/
def Agree (b b' : Json) (field : Bytes) : Prop := (b.get? field).map Json.isNull = (b'.get? field).map Json.isNull

theorem alike_keysOf {order : List OrderTerm} {b b' : Json} (agree : ∀ t ∈ order, Agree b b' t.field) :
    List.Forall₂ Key.Alike (keysOf order b) (keysOf order b') := by
  unfold keysOf
  induction order with
  | nil => exact .nil
  | cons t rest ih =>
    rw [List.forall_mem_cons] at agree
    have head := agree.1
    unfold Agree at head
    cases hv : b.get? t.field with
    | none =>
      cases hw : b'.get? t.field with
      | some w =>
        rw [hv, hw] at head
        cases head
      | none =>
        rw [List.filterMap_cons_none (by rw [hv]; rfl), List.filterMap_cons_none (by rw [hw]; rfl)]
        exact ih agree.2
    | some v =>
      cases hw : b'.get? t.field with
      | none =>
        rw [hv, hw] at head
        cases head
      | some w =>
        rw [hv, hw] at head
        rw [List.filterMap_cons_some (by rw [hv]; rfl), List.filterMap_cons_some (by rw [hw]; rfl)]
        exact .cons ⟨rfl, Option.some.inj head⟩ (ih agree.2)

theorem alike_continuationAfter {d : Dialect} {order : List OrderTerm} {b b' : Json}
    (agree : ∀ t ∈ order, Agree b b' t.field) :
    (continuationAfter d order b).Alike (continuationAfter d order b') := by
  have keys := alike_keysOf agree
  unfold continuationAfter
  cases hk : keysOf order b with
  | nil =>
    rw [hk, List.forall₂_nil_left_iff] at keys
    rw [keys]
    exact .refl _
  | cons k rest =>
    rw [hk] at keys
    obtain ⟨l, rest', -, -, hl⟩ := List.forall₂_cons_left_iff.mp keys
    rw [hl] at keys ⊢
    have parts := alike_branches (d := d) keys .nil
    dsimp only
    rw [if_neg (by simp), if_neg (by simp)]
    cases hf : branches d [] (k :: rest) with
    | nil =>
      rw [hf, List.forall₂_nil_left_iff] at parts
      rw [parts]
      exact .refl _
    | cons f fs =>
      rw [hf] at parts
      obtain ⟨g, gs, -, -, hg⟩ := List.forall₂_cons_left_iff.mp parts
      rw [hg] at parts ⊢
      exact .any parts

end Keyset

/-! ## Plans -/

/-- Two statements of the same text, byte by byte, which bind equally many values. -/
structure Plan.SameText (p q : Plan) : Prop where
  text : p.toSql.render p.dialect = q.toSql.render q.dialect
  count : p.toSql.params.length = q.toSql.params.length

/-- A statement's text depends on its condition's text, and not on what the condition binds. -/
theorem Plan.sameText_of_condition {p q : Plan} (rest : q = { p with condition := q.condition })
    (h : p.condition.Alike q.condition) : p.SameText q := by
  have clause : (Plan.clause " WHERE " p.condition).Alike (Plan.clause " WHERE " q.condition) := by
    unfold Plan.clause
    rw [h.isEmpty_eq]
    split_ifs
    · exact .refl _
    · exact (Fragment.Alike.refl _).append h
  generalize q.condition = condition at rest clause
  subst rest
  have whole : p.toSql.Alike ({ p with condition } : Plan).toSql := by
    unfold toSql
    exact (((((Fragment.Alike.refl _).append clause).append (.refl _)).append (.refl _)).append
      (.refl _)).append (.refl _)
  exact ⟨whole.render_eq _, whole.count⟩

/-! ## Requests -/

/-- Two requests that ask for the same with other values: the values of their filters and filter trees, their search
terms and their cursor tokens may differ. -/
structure Params.Alike (r : Resolver) (p q : Params) : Prop where
  filters : List.Forall₂ (fun a b => (Resolver.filterCondition a).Alike r (Resolver.filterCondition b))
    p.filters q.filters
  filterGroups : FilterTree.SameShape (Condition.Alike r) p.filterGroups q.filterGroups
  search : (Resolver.searchTerm p.search).isEmpty = (Resolver.searchTerm q.search).isEmpty
  cursor : p.cursor.isSome = q.cursor.isSome
  /-- The tokens agree on the keys of the order. -/
  boundary : ∀ order, Keyset.activeOrder r p.sort = .ok order → ∀ t ∈ order,
    Keyset.Agree (Keyset.boundaryAfter p.cursor) (Keyset.boundaryAfter q.cursor) t.field
  sort : p.sort = q.sort
  page : p.page = q.page
  pageSize : p.pageSize = q.pageSize
  select : p.select = q.select
  includeDeleted : p.includeDeleted = q.includeDeleted

namespace Resolver

variable {p q : Params} {c c' : Context} {f g : Fragment}

theorem alike_condition (requests : p.Alike r q) (contexts : c.Alike c') (hf : r.condition p c day = .ok f)
    (hg : r.condition q c' day' = .ok g) : f.Alike g := by
  obtain ⟨scope, static, configured, filters, groups, search, hscope, hstatic, hconfigured, hfilters, hgroups,
    hsearch, rfl⟩ := condition_eq_ok hf
  obtain ⟨scope', static', configured', filters', groups', search', hscope', hstatic', hconfigured', hfilters',
    hgroups', hsearch', rfl⟩ := condition_eq_ok hg
  rw [← requests.includeDeleted] at hscope'
  refine .all (.cons (alike_scope contexts hscope hscope') ?_)
  refine .cons (alike_staticFilters hstatic hstatic') (.cons (alike_configuredGroups hconfigured hconfigured') ?_)
  refine .cons (alike_requestFilters requests.filters hfilters hfilters') ?_
  refine .cons (alike_requestGroups requests.filterGroups hgroups hgroups') (.cons ?_ .nil)
  exact alike_searchFor requests.search (searchFor_of_search hsearch) (searchFor_of_search hsearch')

theorem sameText_dataPlan (requests : p.Alike r q) (conditions : f.Alike g) {select : List SelectItem}
    {plan plan' : Plan} {paging paging' : Paging} (hp : r.dataPlan p select f = .ok (plan, paging))
    (hq : r.dataPlan q select g = .ok (plan', paging')) : plan.SameText plan' := by
  have cursor := requests.cursor
  unfold dataPlan at hp hq
  rw [← requests.sort, ← requests.page, ← requests.pageSize] at hq
  cases first : p.cursor with
  | none =>
    rw [first, Option.isSome_none, eq_comm, Option.isSome_eq_false_iff, Option.isNone_iff_eq_none] at cursor
    rw [first] at hp
    rw [cursor] at hq
    cases hp
    cases hq
    exact Plan.sameText_of_condition rfl conditions
  | some token =>
    rw [first, Option.isSome_some, eq_comm, Option.isSome_iff_exists] at cursor
    obtain ⟨token', second⟩ := cursor
    rw [first] at hp
    rw [second] at hq
    obtain ⟨k, hk, hp⟩ := Checked.bind_eq_ok.mp hp
    obtain ⟨l, hl, hq⟩ := Checked.bind_eq_ok.mp hq
    cases hp
    cases hq
    have order := Keyset.activeOrder_of_ofRequest hk
    have order' := Keyset.activeOrder_of_ofRequest hl
    have same : k.order = l.order := Except.ok.inj (order.symm.trans order')
    have continuations : k.continuation.Alike l.continuation := by
      rw [(Keyset.page_of_ofRequest hk).1, (Keyset.page_of_ofRequest hl).1, ← same, ← first, ← second]
      exact Keyset.alike_continuationAfter (requests.boundary k.order order)
    rw [← same, (Keyset.page_of_ofRequest hk).2, (Keyset.page_of_ofRequest hl).2]
    exact Plan.sameText_of_condition rfl (.all (.cons conditions (.cons continuations .nil)))

theorem sameText_aggregationPlan (conditions : f.Alike g) {plan plan' : Option Plan}
    (hp : r.aggregationPlan f = .ok plan) (hq : r.aggregationPlan g = .ok plan') :
    Option.Rel Plan.SameText plan plan' := by
  unfold aggregationPlan at hp hq
  split_ifs at hp hq
  · cases hp
    cases hq
    exact .none
  · obtain ⟨select, hselect, hp⟩ := Checked.bind_eq_ok.mp hp
    obtain ⟨_, hselect', hq⟩ := Checked.bind_eq_ok.mp hq
    rw [hselect] at hselect'
    cases hselect'
    cases hp
    cases hq
    exact .some (Plan.sameText_of_condition rfl conditions)

end Resolver

namespace Table

variable {t e : Table} {d : Dialect} {p q : Params} {c c' : Context} {clock clock' : Instant} {a b : Compiled}

/-- The tenant of a request does not change which description its caller gets. -/
theorem effective_of_alike (h : c.Alike c') : t.effective c = t.effective c' := by
  have roles : c.roles = c'.roles := by
    unfold Context.roles
    rw [h.user]
  have permissions : c.permissions = c'.permissions := by
    unfold Context.permissions
    rw [h.user]
  unfold effective checkAccess
  rw [roles, permissions]

/-- The values of a request never become text. Two requests that ask for the same with other values, in contexts
that differ in their tenant only, are answered by statements of the same text, for the rows, for their number and
for the aggregates; what differs is bound. -/
theorem text_of_alike (he : t.effective c = .ok e) (hr : Resolver.ofTable e d = .ok r) (requests : p.Alike r q)
    (contexts : c.Alike c') (ha : t.compile d p c clock = .ok a) (hb : t.compile d q c' clock' = .ok b) :
    a.data.SameText b.data ∧ a.count.SameText b.count
      ∧ Option.Rel Plan.SameText a.aggregations b.aggregations ∧ a.outputFields = b.outputFields := by
  unfold compile at ha hb
  rw [← effective_of_alike contexts, he] at hb
  rw [he] at ha
  obtain ⟨_, ⟨⟩, ha⟩ := Checked.bind_eq_ok.mp ha
  obtain ⟨_, ⟨⟩, hb⟩ := Checked.bind_eq_ok.mp hb
  rw [hr] at ha hb
  obtain ⟨_, ⟨⟩, ha⟩ := Checked.bind_eq_ok.mp ha
  obtain ⟨_, ⟨⟩, hb⟩ := Checked.bind_eq_ok.mp hb
  obtain ⟨f, hf, ha⟩ := Checked.bind_eq_ok.mp ha
  obtain ⟨g, hg, hb⟩ := Checked.bind_eq_ok.mp hb
  obtain ⟨select, hselect, ha⟩ := Checked.bind_eq_ok.mp ha
  obtain ⟨_, hselect', hb⟩ := Checked.bind_eq_ok.mp hb
  rw [← requests.select, hselect] at hselect'
  cases hselect'
  obtain ⟨⟨data, paging⟩, hdata, ha⟩ := Checked.bind_eq_ok.mp ha
  obtain ⟨⟨data', paging'⟩, hdata', hb⟩ := Checked.bind_eq_ok.mp hb
  obtain ⟨aggregations, haggregations, ha⟩ := Checked.bind_eq_ok.mp ha
  obtain ⟨aggregations', haggregations', hb⟩ := Checked.bind_eq_ok.mp hb
  cases ha
  cases hb
  have conditions := Resolver.alike_condition requests contexts hf hg
  refine ⟨Resolver.sameText_dataPlan requests conditions hdata hdata', ?_,
    Resolver.sameText_aggregationPlan conditions haggregations haggregations', ?_⟩
  · exact Plan.sameText_of_condition rfl conditions
  · dsimp only
    rw [requests.select]

/-- A table of events, one tenant's apart from another's. -/
def events : Table where
  name := "events"
  base := "events"
  columns := [{ name := "id", type := .number }, { name := "title" }, { name := "day", type := .date },
    { name := "tenantId" }]
  search := some { fields := ["title"] }
  pagination := { cursorKey := "id" }
  aggregations := [{ name := "last", type := .max, field := "day" }]
  tenant := { enabled := true, field := "tenantId" }

/-- A request for some of the events of this week, by a page that goes on after one of them. -/
def thisWeek : Params where
  filters := [("day", { value := .str "thisWeek" }), ("id", { op := .isIn, value := .arr [.int 1, .int 2] })]
  filterGroups := [.group .or [.leaf { field := "title", value := .str "a" }, .leaf { field := "id", value := .null }]]
  search := some "tea"
  cursor := some (Cursor.encode (.obj [("id", .int 7)]))

/-- The same request with other values, among them text that would end a literal. -/
def lastYear : Params where
  filters := [("day", { value := .str "lastYear" }), ("id", { op := .isIn, value := .arr [.int 8, .str "9"] })]
  filterGroups :=
    [.group .or [.leaf { field := "title", value := .str "' OR 1=1 --" }, .leaf { field := "id", value := .null }]]
  search := some " it's? "
  cursor := some (Cursor.encode (.obj [("id", .str "7; --")]))

/-- Both requests get statements of one text, though they are answered decades apart and to different tenants. -/
theorem text_of_alike_events :
    ∃ a b, events.compile .postgresql thisWeek { tenantId := some "acme" } ⟨0⟩ = .ok a
      ∧ events.compile .postgresql lastYear { tenantId := some "'; --" } ⟨999999999999999999⟩ = .ok b
      ∧ a.data.SameText b.data ∧ a.count.SameText b.count
      ∧ Option.Rel Plan.SameText a.aggregations b.aggregations ∧ a.outputFields = b.outputFields := by
  obtain ⟨a, ha⟩ : ∃ a, events.compile .postgresql thisWeek { tenantId := some "acme" } ⟨0⟩ = .ok a := ⟨_, rfl⟩
  obtain ⟨b, hb⟩ : ∃ b, events.compile .postgresql lastYear { tenantId := some "'; --" } ⟨999999999999999999⟩ = .ok b :=
    ⟨_, rfl⟩
  obtain ⟨r, hr⟩ : ∃ r, Resolver.ofTable events .postgresql = .ok r := ⟨_, rfl⟩
  have contexts : ({ tenantId := some "acme" } : Context).Alike { tenantId := some "'; --" } := ⟨rfl, rfl, rfl, rfl⟩
  have lists : (Json.arr [.int 1, .int 2]).Alike (.arr [.int 8, .str "9"]) := by
    refine ⟨rfl, ?_⟩
    rintro _ _ ⟨⟩ ⟨⟩
    rfl
  have requests : thisWeek.Alike r lastYear := by
    cases hr
    refine ⟨?_, ?_, rfl, rfl, ?_, rfl, rfl, rfl, rfl, rfl⟩
    · refine .cons ⟨rfl, rfl, Json.alike_str _ _, ?_⟩ (.cons ⟨rfl, rfl, lists, ?_⟩ .nil)
      · rintro f ⟨⟩
        rfl
      · rintro f ⟨⟩
        rfl
    · refine .group .or (.leaf ⟨rfl, rfl, Json.alike_str _ _, ?_⟩ (.leaf (.refl _ _) .nil)) .nil
      rintro f ⟨⟩
      rfl
    · rintro order ⟨⟩
      intro t mem
      cases List.mem_singleton.mp mem
      unfold Keyset.Agree thisWeek lastYear
      rw [Keyset.boundaryAfter_encode rfl rfl, Keyset.boundaryAfter_encode rfl rfl]
      rfl
  exact ⟨a, b, ha, hb, text_of_alike rfl hr requests contexts ha hb⟩

end Table

end TableQuery

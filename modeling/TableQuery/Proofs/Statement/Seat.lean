import TableQuery.Proofs.Field.Step
import TableQuery.Proofs.Statement.Asked
import TableQuery.Proofs.Statement.Grouped

/-!
# The seats of a request

Every value in a statement comes from somewhere: from a filter of the request or of the description, the tenant, the
search term, the boundary of a cursor, a literal of a subquery, a condition on groups, or the walk down a tree. Where it
comes from says beside which column, sign and words it belongs, and what comes before it. So the rows of seats that a
condition may have follow from the request, in the order in which its filters stand.

## What is proved

What is made of a request has no text but those of the fields, and its values are in a row of its seats:
`Resolver.WordedIn.scope`, `Resolver.WordedIn.condition`, `Resolver.WordedIn.keyset`, `Resolver.WordedIn.grouping` and
`Resolver.WordedIn.rootCondition`.
-/

namespace TableQuery

variable {d : Dialect} {texts : List Bytes} {r : Resolver} {p : Params} {c : Context} {f : Fragment} {day : Day}

/-! ## The rows of conditions -/

/-- The rows of a range of days on a column, which is compared with its first day and with the day after its last. -/
def DateRange.seats (range : DateRange) (own : Language Seat) (column : Bytes) : Language Seat :=
  Operator.oneSeat own column " >= " (.str range.start.toIso)
    * Operator.oneSeat own column " < " (.str range.stop.toIso)

/-- The seats of a filter on the field that it names: those of its operator with the value that is bound, or of the
range of days that its value names. -/
inductive Condition.Seats (author : Author) (r : Resolver) (limits : Limits) (day : Day) (c : Condition) :
    List Seat → Prop where
  | unknown (none : r.resolve c.field = none) : Seats author r limits day c []
  | comparison {g : Field} {v : Json} {row : List Seat} (found : r.resolve c.field = some g)
      (plain : r.preset? g c.value = none) (bound : c.boundValue author limits g = .ok v)
      (mem : row ∈ c.op.seats r.dialect {g.seats r.dialect} g.expression.sql v) : Seats author r limits day c row
  | range {g : Field} {preset : DatePreset} {range : DateRange} {row : List Seat} (found : r.resolve c.field = some g)
      (named : r.preset? g c.value = some preset) (days : preset.rangeOn day = some range)
      (mem : row ∈ range.seats {g.seats r.dialect} g.expression.sql) : Seats author r limits day c row
  | unranged {g : Field} {preset : DatePreset} (found : r.resolve c.field = some g)
      (named : r.preset? g c.value = some preset) (none : preset.rangeOn day = none) : Seats author r limits day c []

/-- The rows of a filter. -/
def Condition.seats (author : Author) (r : Resolver) (limits : Limits) (day : Day) (c : Condition) : Language Seat :=
  Seat.rows (c.Seats author r limits day)

/-- A filter that compares a field with the value that is bound has the rows of its operator. -/
theorem Condition.seats_eq {author : Author} {limits : Limits} {k : Condition} {g : Field} {v : Json}
    (found : r.resolve k.field = some g) (plain : r.preset? g k.value = none)
    (bound : k.boundValue author limits g = .ok v) :
    k.seats author r limits day = k.op.seats r.dialect {g.seats r.dialect} g.expression.sql v := by
  refine Language.ext fun row => ⟨fun place => ?_, .comparison found plain bound⟩
  cases place with
  | unknown none => cases none.symm.trans found
  | comparison found' _ bound' mem =>
    cases found'.symm.trans found
    cases bound'.symm.trans bound
    exact mem
  | range found' named | unranged found' named =>
    cases found'.symm.trans found
    cases named.symm.trans plain

namespace Resolver

/-- The seats of a backend condition, which compares with its value, or with what the context has for a reference. -/
inductive BackendSeats (r : Resolver) (c : Context) (b : Condition) : List Seat → Prop where
  | missing (none : c.replaced b.value = none) : BackendSeats r c b []
  | comparison {g : Field} {v : Json} {row : List Seat} (found : r.resolve b.field = some g)
      (replaced : c.replaced b.value = some v)
      (mem : row ∈ b.op.seats r.dialect {g.seats r.dialect} g.expression.sql v) : BackendSeats r c b row

/-- The seats of the condition that a row is not deleted. -/
inductive DeletedSeats (r : Resolver) (includeDeleted : Bool) : List Seat → Prop where
  | shown (shown : r.table.softDelete.enabled = true → includeDeleted = true) : DeletedSeats r includeDeleted []
  | hidden {g : Field} (enabled : r.table.softDelete.enabled = true)
      (found : r.resolve r.table.softDelete.field = some g) : DeletedSeats r includeDeleted (g.seats r.dialect)

/-- The seats of the condition that a row is the tenant's. -/
inductive TenantSeats (r : Resolver) (c : Context) : List Seat → Prop where
  | shared (off : r.table.tenant.enabled = false) : TenantSeats r c []
  | own {id : Bytes} {g : Field} (enabled : r.table.tenant.enabled = true) (given : c.tenantId = some id)
      (found : r.resolve r.table.tenant.field = some g) :
      TenantSeats r c (g.seats r.dialect ++ [⟨g.expression.sql ++ " = ", .str id, []⟩])

/-- The rows of the scope of a request. -/
def scopeSeats (r : Resolver) (c : Context) (includeDeleted : Bool) : Language Seat :=
  (r.table.backendConditions.map fun b => Seat.rows (r.BackendSeats c b)).prod
    * Seat.rows (r.DeletedSeats includeDeleted) * Seat.rows (r.TenantSeats c)

/-- The seats of a search, for its term in each of the fields, or for its language and its term around all at once. -/
inductive SearchSeats (r : Resolver) (asked : Option Bytes) : List Seat → Prop where
  | nothing : SearchSeats r asked []
  | each {s : Search} {word term : Bytes} {row : List Seat} (described : r.table.search = some s)
      (given : asked = some word) (checked : ({} : Limits).checkSearchTerm word = .ok term)
      (mem : row ∈ ((r.searchFields s).map fun g =>
        Operator.contains.seats r.dialect {g.seats r.dialect} (r.textOf g).sql (.str term)).prod) :
      SearchSeats r asked row
  | together {s : Search} {word term : Bytes} (described : r.table.search = some s)
      (given : asked = some word) (checked : ({} : Limits).checkSearchTerm word = .ok term) :
      SearchSeats r asked (⟨"to_tsvector(CAST(", .str s.language, " AS regconfig), "⟩
        :: (r.searchFields s).flatMap (Field.seats r.dialect)
        ++ [⟨"plainto_tsquery(CAST(", .str s.language, " AS regconfig), ?)"⟩,
          ⟨"plainto_tsquery(CAST(? AS regconfig), ", .str term, ")"⟩])

/-- The rows of the condition on the rows of a request: those of its parts, which stand in a fixed order. -/
def conditionSeats (r : Resolver) (p : Params) (c : Context) (day : Day) : Language Seat :=
  r.scopeSeats c p.includeDeleted
    * ((r.table.filters.filter fun f => f.kind == .static).map fun f => f.condition.seats .description r {} day).prod
    * ((FilterTree.leavesOf r.table.filterGroups).map (Condition.seats .description r {} day)).prod
    * (p.filters.map fun f =>
        Condition.seats .request r {} day { field := f.1, op := f.2.op, value := f.2.value }).prod
    * ((FilterTree.leavesOf p.filterGroups).map (Condition.seats .request r {} day)).prod
    * Seat.rows (r.SearchSeats p.search)

/-- What a plan writes for a field, with the seats that the field brings. -/
inductive Own (r : Resolver) : Fragment → List Seat → Prop where
  | expression {g : Field} (mem : g ∈ r.known) : Own r g.expression (g.seats r.dialect)
  | selected {g : Field} (mem : g ∈ r.known) : Own r g.selectExpression (g.seats r.dialect)
  | fetched {g : Field} {s : Subquery} {e : Fragment} (mem : g ∈ r.known) (origin : g.origin = .subquery s)
      (made : s.toSql r.dialect = .ok e) : Own r e (s.seats r.dialect)
  | call {g : Field} {a : Aggregation} (mem : g ∈ r.known) : Own r (a.call g) (g.seats r.dialect)
  | number : Own r (Fragment.text "count(*)") []

/-- The rows of what a plan writes for a field. -/
def own (r : Resolver) (e : Fragment) : Language Seat := Seat.rows (r.Own e)

end Resolver

/-- The sign between a key and the boundary before it. -/
def SortDirection.sign : SortDirection → Bytes
  | .asc => " > "
  | .desc => " < "

namespace Keyset

/-- The rows of a key on which a row agrees with the boundary. -/
def Key.equalSeats (own : Fragment → Language Seat) (k : Key) : Language Seat :=
  if k.value.isNull then own k.term.expression
  else Operator.oneSeat (own k.term.expression) k.term.expression.sql " = " k.value

/-- The rows of a key on which a row comes after the boundary. Where nulls do so too, the key is named once more. -/
def Key.afterSeats (own : Fragment → Language Seat) (k : Key) : Language Seat :=
  if k.value.isNull then own k.term.expression
  else Operator.oneSeat (own k.term.expression) k.term.expression.sql k.term.direction.sign k.value
    * (1 + own k.term.expression)

/-- The rows of the branches of a continuation, each under the equalities of the keys before it. A key that nothing
comes after has no branch. -/
def branchSeats (own : Fragment → Language Seat) : Language Seat → List Key → Language Seat
  | _, [] => 1
  | equalities, k :: rest =>
    (1 + equalities * k.afterSeats own) * branchSeats own (equalities * k.equalSeats own) rest

end Keyset

/-- The seats of the continuation after a token's boundary. -/
inductive Resolver.ContinuationSeats (r : Resolver) (p : Params) : List Seat → Prop where
  | first : ContinuationSeats r p []
  | after {order : List OrderTerm} {boundary : Json} {row : List Seat}
      (ordered : Keyset.activeOrder r p.sort = .ok order) (decoded : Cursor.decode (p.cursor.getD []) = some boundary)
      (mem : row ∈ Keyset.branchSeats r.own 1 (Keyset.keysOf order boundary)) : ContinuationSeats r p row

/-- The seats of a condition on groups, which compares its aggregate with a value. -/
inductive Resolver.HavingSeats (r : Resolver) (h : HavingCondition) : List Seat → Prop where
  | compared {a : Aggregation} {g : Field} (first : r.table.aggregations.find? (fun a => a.name == h.name) = some a)
      (found : r.scalar? a.field = some g) :
      HavingSeats r h (g.seats r.dialect ++ [h.op.rightSeat r.dialect (a.call g).sql h.value])

/-- The rows of the conditions on groups. -/
def Resolver.havingSeats (r : Resolver) (g : GroupBy) : Language Seat :=
  (g.having.map fun h => Seat.rows (r.HavingSeats h)).prod

/-- The seats of what the rows are told by that a walk starts with. -/
inductive Resolver.RootSeats (r : Resolver) (walk : TreeWalk) : List Seat → Prop where
  | parentless (none : walk.startWith = none) : RootSeats r walk []
  | start {start : Condition} {k : Column} {row : List Seat} (starts : walk.startWith = some start)
      (found : r.baseColumn? start.field = some k)
      (mem : row ∈ start.op.seats r.dialect 1 (walkColumn r.dialect TreeWalk.rootName (bareSource k)).sql start.value) :
      RootSeats r walk row

/-- What stands before the greatest depth of a walk. -/
def TreeWalk.limit (walk : TreeWalk) (d : Dialect) : Bytes :=
  d.quoteName "tree" ++ "." ++ d.quoteName walk.depthName ++ " < "

/-- The rows of the statement of a walk, whose greatest depth comes between its roots and the scope. -/
def Resolver.walkSeats (r : Resolver) (walk : TreeWalk) (c : Context) (includeDeleted : Bool) : Language Seat :=
  Seat.rows (r.RootSeats walk) * {[⟨walk.limit r.dialect, .int walk.maxDepth.toInt, ")"⟩]}
    * r.scopeSeats c includeDeleted

/-- The rows of a plan: those of what it writes for fields, before and behind the rows of its conditions. -/
def Plan.seats (p : Plan) (own : Fragment → Language Seat) (condition having : Language Seat) : Language Seat :=
  (p.select.map fun item => own item.expression).prod * condition * (p.groupBy.map own).prod * having
    * (p.order.map fun t => own t.expression).prod

/-! ## Filters -/

namespace Fragment

variable {α : Type} {parts : List Fragment}

theorem allWordedIn_of_mapM {items : List α} {make : α → Checked Fragment} {own : α → Language Seat}
    (worded : ∀ a ∈ items, ∀ f, make a = .ok f → f.WordedIn d texts (own a)) (h : items.mapM make = .ok parts) :
    AllWordedIn parts d texts (items.map own) := by
  have each := Checked.mapM_eq_ok.mp h
  clear h
  induction each with
  | nil => exact .nil
  | cons made _ ih =>
    rw [List.forall_mem_cons] at worded
    exact .cons (worded.1 _ made) (ih worded.2)

end Fragment

theorem DateRange.wordedIn_toSql (range : DateRange) {own : Language Seat} (h : f.WordedIn d texts own) :
    (range.toSql f).WordedIn d texts (range.seats own f.sql) := by
  have start : (Operator.binary f ">=" (.str range.start.toIso)).WordedIn d texts _ :=
    Operator.wordedIn_binary (.word (by decide)) h
  have stop : (Operator.binary f "<" (.str range.stop.toIso)).WordedIn d texts _ :=
    Operator.wordedIn_binary (.word (by decide)) h
  have both := Fragment.wordedIn_all (.cons start (.cons stop .nil))
  rw [List.prod_pair] at both
  exact both

namespace Condition

variable {author : Author} {limits : Limits} {k : Condition} {g : Fragment}

/-- The condition of a filter on a known field has no text but the field's, and its values are in the filter's seats. -/
theorem Becomes.wordedIn {field : Field} (found : r.resolve k.field = some field)
    (expression : field.expression.WordedIn r.dialect texts {field.seats r.dialect})
    (h : k.Becomes r day field (k.boundValue author limits field) g) :
    g.WordedIn r.dialect texts (k.seats author r limits day) := by
  cases h with
  | preset p named made =>
    subst made
    unfold DatePreset.toSql
    split
    · next range days => exact (range.wordedIn_toSql expression).mono fun row => .range found named days
    · next none => exact Fragment.wordedIn_empty.of_row (.unranged found named none)
  | comparison v plain bound applied =>
    exact (Operator.wordedIn_apply expression applied).mono fun row => .comparison found plain bound

theorem wordedIn_ofRequest (hr : r.WordedIn texts) (h : k.ofRequest r limits day = .ok g) :
    g.WordedIn r.dialect texts (k.seats .request r limits day) := by
  rcases ofRequest_eq_ok h with ⟨none, rfl⟩ | ⟨field, found, -, becomes⟩
  · exact Fragment.wordedIn_empty.of_row (.unknown none)
  · exact becomes.wordedIn found (hr.expression_of_resolve found)

theorem wordedIn_ofDescription (hr : r.WordedIn texts) (h : k.ofDescription r day = .ok g) :
    g.WordedIn r.dialect texts (k.seats .description r {} day) := by
  obtain ⟨field, found, becomes⟩ := ofDescription_eq_ok h
  exact becomes.wordedIn found (hr.expression_of_resolve found)

end Condition

namespace FilterTree

variable {leaf : Condition → Checked Fragment} {own : Condition → Language Seat}

theorem prod_leaves (trees : List FilterTree) :
    (trees.map fun t => (t.leaves.map own).prod).prod = ((leavesOf trees).map own).prod := by
  induction trees with
  | nil => rfl
  | cons t trees ih => rw [List.map_cons, List.prod_cons, ih, leavesOf, List.map_append, List.prod_append]

mutual

/-- The condition of a tree has the seats of its leaves, in their order. -/
theorem wordedIn_toSql (worded : ∀ c f, leaf c = .ok f → f.WordedIn d texts (own c)) (tree : FilterTree) {f : Fragment}
    (h : tree.toSql leaf = .ok f) : f.WordedIn d texts (tree.leaves.map own).prod := by
  cases tree with
  | leaf c =>
    rw [toSql] at h
    rw [leaves, List.map_singleton, List.prod_singleton]
    exact worded c f h
  | group op children =>
    rw [toSql] at h
    obtain ⟨parts, hparts, h⟩ := Checked.bind_eq_ok.mp h
    rw [leaves, ← prod_leaves]
    cases op with
    | and =>
      cases h
      exact Fragment.wordedIn_all (allWordedIn_listToSql worded children hparts)
    | or =>
      cases h
      exact Fragment.wordedIn_any (allWordedIn_listToSql worded children hparts)

theorem allWordedIn_listToSql (worded : ∀ c f, leaf c = .ok f → f.WordedIn d texts (own c)) (trees : List FilterTree)
    {parts : List Fragment} (h : listToSql leaf trees = .ok parts) :
    Fragment.AllWordedIn parts d texts (trees.map fun t => (t.leaves.map own).prod) := by
  cases trees with
  | nil =>
    rw [listToSql] at h
    cases h
    exact .nil
  | cons tree rest =>
    obtain ⟨part, parts, hpart, hparts, rfl⟩ := listToSql_cons_eq_ok h
    exact .cons (wordedIn_toSql worded tree hpart) (allWordedIn_listToSql worded rest hparts)

end

end FilterTree

namespace Resolver

/-! ## Searches -/

section Searches

variable {own : Language Seat}

theorem wordedIn_castText (h : f.WordedIn d texts own) :
    ((((Fragment.text "CAST(" ++ f).add " AS ").add d.textType).add ")").WordedIn d texts own := by
  have type : Phrase d d.textType := .word (by cases d <;> decide)
  have opened := h.behind (Fragment.wordedIn_text texts (.word (by decide) : Phrase d "CAST("))
  exact ((opened.add (.word (by decide))).add type).add (.word (by decide))

theorem wordedIn_textOf {field : Field} (h : field.expression.WordedIn r.dialect texts own) :
    (r.textOf field).WordedIn r.dialect texts own := by
  unfold textOf
  split_ifs
  · exact h
  · exact wordedIn_castText h

/-- What a full-text search asks of its document. -/
theorem wordedIn_query {document : Fragment} (language term : Bytes) (h : document.WordedIn d texts own) :
    (((((document.add ") @@ plainto_tsquery(CAST(").bind (.str language)).add " AS regconfig), ").bind
      (.str term)).add ")").WordedIn d texts
      (own * {[⟨"plainto_tsquery(CAST(", .str language, " AS regconfig), ?)"⟩,
        ⟨"plainto_tsquery(CAST(? AS regconfig), ", .str term, ")"⟩]}) := by
  have queried := h.add (.word (by decide) : Phrase d ") @@ plainto_tsquery(CAST(")
  have called : Bytes.ofString "plainto_tsquery(CAST(" <:+ (document.add ") @@ plainto_tsquery(CAST(").sql := by
    have ends : Bytes.ofString "plainto_tsquery(CAST(" <:+ Bytes.ofString ") @@ plainto_tsquery(CAST(" := by decide
    exact List.suffix_append_of_suffix ends
  have asked := (queried.at [] _).bind ⟨"plainto_tsquery(CAST(", .str language, " AS regconfig), ?)"⟩ called
    (List.prefix_refl _)
  have worded := asked.add (.word (by decide) : Phrase d " AS regconfig), ")
  have filled : Bytes.ofString "plainto_tsquery(CAST(? AS regconfig), "
      <:+ (((document.add ") @@ plainto_tsquery(CAST(").bind (.str language)).add " AS regconfig), ").sql := by
    simp only [Fragment.sql_add, Fragment.sql_bind, List.append_assoc]
    exact List.suffix_append_of_suffix (by decide)
  have both := worded.bind ⟨"plainto_tsquery(CAST(? AS regconfig), ", .str term, ")"⟩ filled (List.prefix_refl _)
  rw [mul_assoc, ← Seat.singleton_cons] at both
  exact both.add (.word (by decide))

theorem wordedIn_fullText {language term : Bytes} {fields : List Field}
    (hfields : ∀ g ∈ fields, g.expression.WordedIn r.dialect texts {g.seats r.dialect})
    (h : r.fullText language term fields = .ok f) :
    f.WordedIn r.dialect texts {⟨"to_tsvector(CAST(", .str language, " AS regconfig), "⟩
        :: fields.flatMap (Field.seats r.dialect)
        ++ [⟨"plainto_tsquery(CAST(", .str language, " AS regconfig), ?)"⟩,
          ⟨"plainto_tsquery(CAST(? AS regconfig), ", .str term, ")"⟩]} := by
  unfold fullText at h
  obtain ⟨-, -, h⟩ := Checked.bind_eq_ok.mp h
  cases h
  have documents : Fragment.AllWordedIn
      (fields.map fun f => (Fragment.text "coalesce(" ++ r.textOf f).add ", '')") r.dialect texts
      ((fields.map (Field.seats r.dialect)).map fun row => {row}) := by
    rw [List.map_map]
    refine Fragment.allWordedIn_map fun g mem => ?_
    have opened := Fragment.wordedIn_text texts (.word (by decide) : Phrase r.dialect "coalesce(")
    exact ((wordedIn_textOf (hfields g mem)).behind opened).add (.word (by decide))
  have joined := Fragment.wordedIn_join (.word (by decide) : Phrase r.dialect " || ' ' || ") documents
  rw [Seat.prod_singletons, ← List.flatMap_def] at joined
  have opened := Fragment.wordedIn_text texts (.word (by decide) : Phrase r.dialect "to_tsvector(CAST(")
  have configured := (opened.at [] _).bind ⟨"to_tsvector(CAST(", .str language, " AS regconfig), "⟩ (List.suffix_refl _)
    (List.prefix_append _ [])
  rw [one_mul] at configured
  have document := Fragment.WordedIn.append
    (configured.add (.word (by decide) : Phrase r.dialect " AS regconfig), ")) joined
  rw [← Seat.singleton_cons] at document
  have whole := wordedIn_query language term document
  rw [Seat.singleton_mul] at whole
  exact whole

end Searches

namespace WordedIn

variable (hr : r.WordedIn texts)
include hr

theorem search (h : r.search {} p.search = .ok f) :
    f.WordedIn r.dialect texts (Seat.rows (r.SearchSeats p.search)) := by
  rcases search_cases h with ⟨s, word, term, described, asked, -, checked, -, looks⟩ | ⟨rfl, -⟩
  · have fields : ∀ g ∈ r.searchFields s, g.expression.WordedIn r.dialect texts {g.seats r.dialect} := by
      intro g mem
      obtain ⟨name, -, found⟩ := List.mem_filterMap.mp mem
      exact hr.expression_of_resolve (Option.filter_eq_some_iff.mp found).1
    have each := @SearchSeats.each r p.search s word term
    have together := @SearchSeats.together r p.search s word term described asked checked
    generalize r.searchFields s = looked at looks fields each together
    cases looks with
    | nowhere => exact Fragment.wordedIn_empty.of_row .nothing
    | each _ made =>
      have parts := Fragment.allWordedIn_of_mapM (fun g mem part contains =>
        Operator.wordedIn_apply (wordedIn_textOf (fields g mem)) contains) made
      exact (Fragment.wordedIn_any parts).mono fun row => each described asked checked
    | together _ language made =>
      rw [described] at language
      cases language
      exact (wordedIn_fullText fields made).of_row together
  · exact Fragment.wordedIn_empty.of_row .nothing

/-! ## The scope and the condition -/

variable {includeDeleted : Bool}

theorem scope (h : r.scope c includeDeleted = .ok f) :
    f.WordedIn r.dialect texts (r.scopeSeats c includeDeleted) := by
  obtain ⟨backend, deleted, tenant, hbackend, hdeleted, htenant, rfl⟩ := scope_eq_ok h
  have conditions : backend.WordedIn r.dialect texts
      (r.table.backendConditions.map fun b => Seat.rows (r.BackendSeats c b)).prod := by
    unfold backendConditions at hbackend
    obtain ⟨parts, hparts, hbackend⟩ := Checked.bind_eq_ok.mp hbackend
    cases hbackend
    refine Fragment.wordedIn_all (Fragment.allWordedIn_of_mapM (fun b _ g made => ?_) hparts)
    obtain ⟨field, found, ⟨missing, rfl⟩ | ⟨v, replaced, applied⟩⟩ := backendCondition_eq_ok made
    · exact Fragment.wordedIn_alwaysFalse.of_row (.missing missing)
    · have worded := Operator.wordedIn_apply (hr.expression_of_resolve found) applied
      exact worded.mono fun row => .comparison found replaced
  have present : deleted.WordedIn r.dialect texts (Seat.rows (r.DeletedSeats includeDeleted)) := by
    rcases softDelete_eq_ok hdeleted with ⟨shown, rfl⟩ | ⟨enabled, -, field, found, applied⟩
    · exact Fragment.wordedIn_empty.of_row (.shown shown)
    · cases applied
      exact ((hr.expression_of_resolve found).add (.word (by decide))).of_row (.hidden enabled found)
  have owned : tenant.WordedIn r.dialect texts (Seat.rows (r.TenantSeats c)) := by
    rcases tenant_eq_ok htenant with ⟨off, rfl⟩ | ⟨enabled, id, field, given, found, applied⟩
    · exact Fragment.wordedIn_empty.of_row (.shared off)
    · have worded := Operator.wordedIn_apply (hr.expression_of_resolve found) applied
      have row : Operator.seats r.dialect {field.seats r.dialect} field.expression.sql .eq (.str id)
          = {field.seats r.dialect ++ [⟨field.expression.sql ++ " = ", .str id, []⟩]} :=
        Seat.singleton_mul _ _
      rw [row] at worded
      exact worded.of_row (.own enabled given found)
  have parts := Fragment.wordedIn_all (.cons conditions (.cons present (.cons owned .nil)))
  simp only [List.prod_cons, List.prod_nil, mul_one, ← mul_assoc] at parts
  exact parts

/-- The condition of a request has no text but those of the fields, and its values are in the seats of the request. -/
theorem condition (h : r.condition p c day = .ok f) : f.WordedIn r.dialect texts (r.conditionSeats p c day) := by
  obtain ⟨scope, static, configured, filters, groups, search, hscope, hstatic, hconfigured, hfilters, hgroups,
    hsearch, rfl⟩ := condition_eq_ok h
  have ofDescription (k : Condition) (g : Fragment) (made : k.ofDescription r day = .ok g) :=
    Condition.wordedIn_ofDescription hr made
  have ofRequest (k : Condition) (g : Fragment) (made : k.ofRequest r {} day = .ok g) :=
    Condition.wordedIn_ofRequest hr made
  have hstatic : static.WordedIn r.dialect texts ((r.table.filters.filter fun f => f.kind == .static).map fun f =>
      f.condition.seats .description r {} day).prod := by
    obtain ⟨parts, hparts, made⟩ := Checked.bind_eq_ok.mp hstatic
    cases made
    exact Fragment.wordedIn_all (Fragment.allWordedIn_of_mapM (fun f _ => ofDescription f.condition) hparts)
  have hconfigured : configured.WordedIn r.dialect texts
      ((FilterTree.leavesOf r.table.filterGroups).map (Condition.seats .description r {} day)).prod := by
    obtain ⟨parts, hparts, made⟩ := Checked.bind_eq_ok.mp hconfigured
    cases made
    rw [← FilterTree.prod_leaves]
    exact Fragment.wordedIn_all (FilterTree.allWordedIn_listToSql ofDescription _ hparts)
  have hfilters : filters.WordedIn r.dialect texts (p.filters.map fun f =>
      Condition.seats .request r {} day { field := f.1, op := f.2.op, value := f.2.value }).prod := by
    obtain ⟨parts, hparts, made⟩ := Checked.bind_eq_ok.mp hfilters
    cases made
    exact Fragment.wordedIn_all (Fragment.allWordedIn_of_mapM (fun f _ => ofRequest _) hparts)
  have hgroups : groups.WordedIn r.dialect texts
      ((FilterTree.leavesOf p.filterGroups).map (Condition.seats .request r {} day)).prod := by
    obtain ⟨parts, hparts, made⟩ := Checked.bind_eq_ok.mp hgroups
    cases made
    rw [← FilterTree.prod_leaves]
    exact Fragment.wordedIn_all (FilterTree.allWordedIn_listToSql ofRequest _ hparts)
  have parts := Fragment.wordedIn_all (.cons (hr.scope hscope) (.cons hstatic (.cons hconfigured (.cons hfilters
    (.cons hgroups (.cons (hr.search hsearch) .nil))))))
  simp only [List.prod_cons, List.prod_nil, mul_one, ← mul_assoc] at parts
  exact parts

end WordedIn

end Resolver

/-! ## Orders and continuations -/

namespace Keyset

variable {own : Fragment → Language Seat} {k : Key}

theorem Key.wordedIn_equal (h : k.term.expression.WordedIn d texts (own k.term.expression)) :
    k.equal.WordedIn d texts (k.equalSeats own) := by
  unfold equal equalSeats
  split_ifs
  · exact h.add (.word (by decide))
  · exact Operator.wordedIn_binary (.word (by decide)) h

theorem Key.wordedIn_after (h : k.term.expression.WordedIn d texts (own k.term.expression)) {g : Fragment}
    (made : k.after? d = some g) : g.WordedIn d texts (k.afterSeats own) := by
  have isNull : (k.term.expression.add " IS NULL").WordedIn d texts (own k.term.expression) := h.add (.word (by decide))
  have beyond : (Operator.binary k.term.expression (if k.term.direction == .desc then "<" else ">")
      k.value).WordedIn d texts
      (Operator.oneSeat (own k.term.expression) k.term.expression.sql k.term.direction.sign k.value) := by
    cases k.term.direction with
    | asc => exact Operator.wordedIn_binary (.word (by decide)) h
    | desc => exact Operator.wordedIn_binary (.word (by decide)) h
  unfold after? at made
  dsimp only at made
  generalize Operator.binary k.term.expression (if k.term.direction == .desc then "<" else ">") k.value = test
    at made beyond
  unfold afterSeats
  split_ifs at made ⊢
  · cases made
    exact h.add (.word (by decide))
  · cases made
    have both := Fragment.wordedIn_any (.cons beyond (.cons isNull .nil))
    rw [List.prod_pair] at both
    rw [mul_add, mul_one]
    exact both.mono fun row mem => (Language.mem_add ..).mpr (.inr mem)
  · cases made
    rw [mul_add, mul_one]
    exact beyond.mono fun row mem => (Language.mem_add ..).mpr (.inl mem)

/-- The branches have their seats one after the other. A key without a branch has none. -/
theorem exists_branchSeats {keys : List Key}
    (hkeys : ∀ k ∈ keys, k.term.expression.WordedIn d texts (own k.term.expression))
    {equalities : List Fragment} {rows : List (Language Seat)} (heq : Fragment.AllWordedIn equalities d texts rows) :
    ∃ left, Fragment.AllWordedIn (branches d equalities keys) d texts left
      ∧ ∀ row ∈ left.prod, row ∈ branchSeats own rows.prod keys := by
  induction keys generalizing equalities rows with
  | nil => exact ⟨[], .nil, fun row mem => mem⟩
  | cons k rest ih =>
    rw [List.forall_mem_cons] at hkeys
    have equal : Fragment.AllWordedIn [k.equal] d texts [k.equalSeats own] := .cons (k.wordedIn_equal hkeys.1) .nil
    obtain ⟨left, worded, among⟩ := ih hkeys.2 (List.rel_append heq equal)
    rw [List.prod_append, List.prod_singleton] at among
    rw [branches]
    cases made : k.after? d with
    | none =>
      refine ⟨left, worded, fun row mem => ?_⟩
      exact Language.append_mem_mul ((Language.mem_add ..).mpr (.inl Language.nil_mem_one)) (among row mem)
    | some g =>
      have after : Fragment.AllWordedIn [g] d texts [k.afterSeats own] := .cons (k.wordedIn_after hkeys.1 made) .nil
      have branch := Fragment.wordedIn_all (List.rel_append heq after)
      rw [List.prod_append, List.prod_singleton] at branch
      refine ⟨_, .cons branch worded, fun row mem => ?_⟩
      rw [List.prod_cons] at mem
      obtain ⟨first, hfirst, second, hsecond, rfl⟩ := Language.mem_mul.mp mem
      exact Language.append_mem_mul ((Language.mem_add ..).mpr (.inr hfirst)) (among second hsecond)

/-- The continuation after a boundary has no text but those of the keys, and its values are in the seats of its
branches. -/
theorem wordedIn_continuationAfter {order : List OrderTerm} {boundary : Json}
    (terms : ∀ t ∈ order, t.expression.WordedIn d texts (own t.expression)) :
    (continuationAfter d order boundary).WordedIn d texts (branchSeats own 1 (keysOf order boundary)) := by
  have hkeys : ∀ k ∈ keysOf order boundary, k.term.expression.WordedIn d texts (own k.term.expression) :=
    fun k mem => terms _ (mem_keysOf mem).1
  obtain ⟨left, worded, among⟩ := exists_branchSeats hkeys (.nil : Fragment.AllWordedIn [] d texts [])
  unfold continuationAfter
  dsimp only
  split_ifs with none
  · rw [List.isEmpty_iff.mp none]
    exact Fragment.wordedIn_empty
  · generalize branches d [] (keysOf order boundary) = parts at worded
    cases worded with
    | nil => exact Fragment.wordedIn_alwaysFalse.of_row (among [] rfl)
    | cons first rest => exact (Fragment.wordedIn_any (.cons first rest)).mono among

end Keyset

namespace Resolver.WordedIn

variable (hr : r.WordedIn texts)
include hr

/-- What is written for a field that a name finds. -/
theorem own_of_resolve {name : Bytes} {g : Field} (found : r.resolve name = some g) :
    g.expression.WordedIn r.dialect texts (r.own g.expression) :=
  (hr.expression_of_resolve found).of_row (.expression (mem_of_resolve found))

theorem lenientOrder {requested : List SortKey} :
    ∀ t ∈ r.lenientOrder requested, t.expression.WordedIn r.dialect texts (r.own t.expression) := by
  intro t mem
  obtain ⟨name, g, found, -, expressed⟩ := mem_lenientOrder mem
  rw [expressed]
  exact hr.own_of_resolve found

/-- The order and the continuation of a page by cursor have no text but those of the fields, whatever the token says,
and the values of its boundary are in the seats of their keys. -/
theorem keyset {pageSize : Option Int64} {k : Keyset} (h : Keyset.ofRequest r p.cursor pageSize p.sort = .ok k) :
    (∀ t ∈ k.order, t.expression.WordedIn r.dialect texts (r.own t.expression))
      ∧ k.continuation.WordedIn r.dialect texts (Seat.rows (r.ContinuationSeats p)) := by
  have ordered := Keyset.activeOrder_of_ofRequest h
  have terms : ∀ t ∈ k.order, t.expression.WordedIn r.dialect texts (r.own t.expression) := by
    intro t mem
    obtain ⟨name, g, found, -, -, -, expressed⟩ := Keyset.mem_activeOrder ordered mem
    rw [expressed]
    exact hr.own_of_resolve found
  refine ⟨terms, ?_⟩
  rcases Keyset.continuation_of_ofRequest h with none | ⟨boundary, decoded, after⟩
  · rw [none]
    exact Fragment.wordedIn_empty.of_row .first
  · rw [after]
    exact (Keyset.wordedIn_continuationAfter terms).mono fun row => .after ordered decoded

end Resolver.WordedIn

/-! ## Aggregates -/

theorem Aggregation.wordedIn_call (a : Aggregation) {g : Field} {own : Language Seat}
    (h : g.expression.WordedIn d texts own) : (a.call g).WordedIn d texts own := by
  have name : Phrase d (a.type.name ++ [Ascii.leftParen]) := .word (by cases a.type <;> decide)
  exact (h.behind (Fragment.wordedIn_text texts name)).add (.word (by decide))

namespace Resolver.WordedIn

variable (hr : r.WordedIn texts)
include hr

theorem expression_of_scalar? {name : Bytes} {g : Field} (found : r.scalar? name = some g) :
    g.expression.WordedIn r.dialect texts {g.seats r.dialect} :=
  hr.expression_of_resolve (Option.filter_eq_some_iff.mp found).1

theorem own_of_scalar? {name : Bytes} {g : Field} (found : r.scalar? name = some g) :
    g.expression.WordedIn r.dialect texts (r.own g.expression) :=
  hr.own_of_resolve (Option.filter_eq_some_iff.mp found).1

theorem own_call (a : Aggregation) {name : Bytes} {g : Field} (found : r.scalar? name = some g) :
    (a.call g).WordedIn r.dialect texts (r.own (a.call g)) :=
  (a.wordedIn_call (hr.expression_of_scalar? found)).of_row
    (.call (mem_of_resolve (Option.filter_eq_some_iff.mp found).1))

theorem aggregates {items : List SelectItem} (h : r.aggregates = .ok items) :
    ∀ item ∈ items, item.expression.WordedIn r.dialect texts (r.own item.expression) := by
  intro item mem
  obtain ⟨a, -, g, found, rfl⟩ := Checked.exists_of_forall₂ (aggregates_eq_ok h).flip mem
  exact hr.own_call a found

omit hr in
theorem own_number : (Fragment.text "count(*)").WordedIn r.dialect texts (r.own (Fragment.text "count(*)")) :=
  (Fragment.wordedIn_text texts (.word (by decide))).of_row .number

theorem aggregateSelection {items : List SelectItem} (h : r.aggregateSelection = .ok items) :
    ∀ item ∈ items, item.expression.WordedIn r.dialect texts (r.own item.expression) := by
  unfold Resolver.aggregateSelection at h
  obtain ⟨calls, hcalls, h⟩ := Checked.bind_eq_ok.mp h
  cases h
  rw [List.forall_mem_append, List.forall_mem_singleton]
  exact ⟨hr.aggregates hcalls, own_number⟩

/-- So it is with the parts of a grouped statement, whose conditions compare calls with values. -/
theorem grouping {g : GroupBy} {made : Grouping} (described : r.table.groupBy = some g)
    (h : r.grouping = .ok made) :
    (∀ item ∈ made.select, item.expression.WordedIn r.dialect texts (r.own item.expression))
      ∧ (∀ e ∈ made.groupBy, e.WordedIn r.dialect texts (r.own e))
      ∧ made.having.WordedIn r.dialect texts (r.havingSeats g) := by
  obtain ⟨fields, items, named, calls, select, groupBy⟩ := (grouping_eq_ok described h).outputs
  obtain ⟨conditions, compared, having⟩ := (grouping_eq_ok described h).conditions
  have expressions : ∀ f ∈ fields, f.expression.WordedIn r.dialect texts (r.own f.expression) := by
    intro f mem
    obtain ⟨name, -, found⟩ := Checked.exists_of_forall₂ named.flip mem
    exact hr.own_of_scalar? found
  refine ⟨?_, ?_, ?_⟩
  · rw [select, List.forall_mem_append, List.forall_mem_map]
    refine ⟨expressions, fun item mem => ?_⟩
    obtain ⟨a, -, f, found, rfl⟩ := Checked.exists_of_forall₂ calls.flip mem
    exact hr.own_call a found
  · rw [groupBy, List.forall_mem_map]
    exact expressions
  · rw [having]
    have each : Fragment.AllWordedIn conditions r.dialect texts
        (g.having.map fun h => Seat.rows (r.HavingSeats h)) := by
      unfold Fragment.AllWordedIn
      rw [List.forall₂_map_right_iff]
      refine compared.flip.imp ?_
      rintro e condition ⟨a, f, first, found, rfl⟩
      have call := a.wordedIn_call (hr.expression_of_scalar? found)
      have sides := Comparison.wordedIn_apply condition.op (call.at _ _)
        (Fragment.wordedAt_value (condition.op.rightSeat r.dialect (a.call f).sql condition.value) (List.suffix_refl _)
          (List.prefix_refl _))
      rw [Seat.singleton_mul] at sides
      exact sides.of_row (.compared first found)
    exact Fragment.wordedIn_all each

/-- What a grouped statement is sorted by is grouped by or a call. -/
theorem groupedOrder {g : GroupBy} {made : Grouping} (described : r.table.groupBy = some g)
    (hmade : r.grouping = .ok made) {sort : List SortKey} {order : List OrderTerm}
    (h : r.groupedOrder g.fields made sort = .ok order) :
    ∀ t ∈ order, t.expression.WordedIn r.dialect texts (r.own t.expression) := by
  rintro ⟨field, expression, direction, nullable⟩ mem
  cases groupwise_of_groupedOrder described hmade h _ mem with
  | grouped mem => exact (hr.grouping described hmade).2.1 _ mem
  | call _ found => exact hr.own_call _ found

/-- What is written for a field is worded with each row of its own. -/
theorem of_own {e : Fragment} {row : List Seat} (own : r.Own e row) : e.WordedIn r.dialect texts {row} := by
  cases own with
  | expression mem => exact (hr.fields _ mem).expression
  | selected mem => exact (hr.fields _ mem).selected
  | fetched mem origin made => exact Subquery.wordedIn_toSql made ((hr.fields _ mem).filter _ origin)
  | call mem => exact Aggregation.wordedIn_call _ (hr.fields _ mem).expression
  | number => exact Fragment.wordedIn_text texts (.word (by decide))

/-- So the rows of what is written for fields have the values that it brings. -/
theorem values_of_own {α : Type} (part : α → Fragment) {items : List α} {row : List Seat}
    (mem : row ∈ (items.map fun a => r.own (part a)).prod) :
    row.map Seat.value = items.flatMap fun a => (part a).params := by
  induction items generalizing row with
  | nil =>
    rw [(mem : row = [])]
    rfl
  | cons a items ih =>
    rw [List.map_cons, List.prod_cons] at mem
    obtain ⟨first, own, rest, others, rfl⟩ := Language.mem_mul.mp mem
    rw [List.map_append, List.flatMap_cons, ih others, (hr.of_own own).params_eq]

/-! ## The roots of a walk -/

omit hr in
theorem rootCondition {walk : TreeWalk} {parent : Bytes} (h : r.rootCondition walk parent = .ok f) :
    f.WordedIn r.dialect texts (Seat.rows (r.RootSeats walk)) := by
  unfold Resolver.rootCondition at h
  split at h
  · next none =>
    cases h
    exact ((Fragment.wordedIn_identifier _ _).add (.word (by decide))).of_row (.parentless none)
  · next start starts =>
    split at h
    · next k found =>
      exact (Operator.wordedIn_apply (Fragment.wordedIn_identifier _ _) h).mono fun row => .start starts found
    · cases h

end Resolver.WordedIn

end TableQuery

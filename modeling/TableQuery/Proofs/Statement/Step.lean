import TableQuery.Proofs.Statement.Seat
import TableQuery.Proofs.Statement.Selection
import TableQuery.Proofs.Statement.Tree

/-!
# Statements in step

A statement is put together from the fields of a description and from what a request asks for. Whatever a request
has is either bound as a value or used to look something up; the names, the keywords and the numbers around the
values are phrases of its dialect. So a statement has no other text but those of the fields, whichever of its parts are
there, and it is in step if these are quiet. Where its values come from says where they belong in it and in which order
(`Table.Seats`).

## What is proved

`Table.wordedIn_of_produces`: beside the phrases of its dialect, a statement has no text but those that the description
has written into SQL, and its values are in a row of its seats. From `Plan.WordedIn.toSql` for the plans, whose parts
have no other text one by one, and `Table.exists_of_compileTree` for the walk down a tree.
`Table.placeholders_matched`: in every statement for a validated description whose trusted SQL is quiet, placeholders
and values go together, and each placeholder stands where the value of its number belongs.
-/

namespace TableQuery

variable {d : Dialect} {texts : List Bytes} {r : Resolver} {p : Params} {c : Context} {f : Fragment} {day : Day}

/-! ## Plans -/

namespace Plan

/-- All parts of a plan are worded so in its dialect. -/
structure WordedIn (p : Plan) (texts : List Bytes) (own : Fragment → Language Seat)
    (condition having : Language Seat) : Prop where
  select : ∀ item ∈ p.select, item.expression.WordedIn p.dialect texts (own item.expression)
  joins : ∀ clause ∈ p.joins, clause.condition.WordedIn p.dialect texts 1
  condition : p.condition.WordedIn p.dialect texts condition
  groupBy : ∀ e ∈ p.groupBy, e.WordedIn p.dialect texts (own e)
  having : p.having.WordedIn p.dialect texts having
  order : ∀ t ∈ p.order, t.expression.WordedIn p.dialect texts (own t.expression)

theorem wordedIn_clause {keyword : Bytes} (phrase : Phrase d keyword) {seats : Language Seat}
    (h : f.WordedIn d texts seats) : (clause keyword f).WordedIn d texts seats := by
  unfold clause
  split_ifs with none
  · exact Fragment.wordedIn_empty.of_row (h.nil_mem none)
  · exact h.behind (Fragment.wordedIn_text texts phrase)

theorem wordedIn_listClause {keyword : Bytes} (phrase : Phrase d keyword) {content : List Fragment}
    {rows : List (Language Seat)} (h : Fragment.AllWordedIn content d texts rows) :
    (listClause keyword content).WordedIn d texts rows.prod := by
  cases h with
  | nil => exact Fragment.wordedIn_empty
  | cons first rest =>
    exact (Fragment.wordedIn_join (.word (by decide)) (.cons first rest)).behind (Fragment.wordedIn_text texts phrase)

/-- The numbers of a page are written into the text. -/
theorem wordedIn_pageClause (p : Plan) : p.pageClause.WordedIn p.dialect texts 1 := by
  unfold pageClause
  split
  · exact Fragment.wordedIn_empty
  · next limit _ =>
    have limited := Fragment.wordedIn_text texts
      ((.word (by decide) : Phrase p.dialect " LIMIT ").append (.number limit.toInt))
    dsimp only
    split_ifs
    · exact limited.add ((.word (by decide) : Phrase p.dialect " OFFSET ").append (.number p.offset.toInt))
    · exact limited

section WordedIn

variable {p : Plan} {own : Fragment → Language Seat} {condition having : Language Seat}
variable (h : p.WordedIn texts own condition having)
include h

theorem WordedIn.items :
    Fragment.AllWordedIn (p.select.map (itemToSql p.dialect)) p.dialect texts
      (p.select.map fun item => own item.expression) :=
  Fragment.allWordedIn_map fun item mem => ((h.select item mem).add (.word (by decide))).add (.name item.name)

theorem WordedIn.selection :
    p.selection.WordedIn p.dialect texts (p.select.map fun item => own item.expression).prod := by
  have items := h.items
  unfold Plan.selection
  split_ifs with none
  · rw [List.isEmpty_iff.mp none]
    exact Fragment.wordedIn_text texts (.word (by decide))
  · exact Fragment.wordedIn_join (.word (by decide)) items

/-- What stands before the joins. -/
theorem WordedIn.head :
    (((Fragment.text "SELECT " ++ p.selection).add " FROM ").add (p.dialect.quoteName p.base)).WordedIn p.dialect texts
      (p.select.map fun item => own item.expression).prod :=
  ((h.selection.behind (Fragment.wordedIn_text texts (.word (by decide)))).add (.word (by decide))).add (.name p.base)

theorem WordedIn.joinList : p.joinList.WordedIn p.dialect texts 1 :=
  List.foldlRecOn (motive := (Fragment.WordedIn · p.dialect texts 1)) p.joins _ Fragment.wordedIn_empty
    fun _ start clause mem => (JoinClause.wordedIn_toSql (h.joins clause mem)).behind (start.add (.word (by decide)))

theorem WordedIn.groups : Fragment.AllWordedIn p.groupBy p.dialect texts (p.groupBy.map own) := by
  have each := Fragment.allWordedIn_map h.groupBy
  rw [List.map_id'] at each
  exact each

theorem WordedIn.orderClause :
    (if p.order.isEmpty then Fragment.empty else
      Fragment.text " ORDER BY " ++ OrderTerm.listToSql p.order).WordedIn p.dialect texts
      (p.order.map fun t => own t.expression).prod := by
  have terms := OrderTerm.wordedIn_listToSql h.order
  split_ifs with none
  · rw [List.isEmpty_iff.mp none]
    exact Fragment.wordedIn_empty
  · exact terms.behind (Fragment.wordedIn_text texts (.word (by decide)))

/-- Beside the phrases of its dialect, the statement of a plan has no text but those of its parts, and its values are in
a row of the plan. -/
theorem WordedIn.toSql : p.toSql.WordedIn p.dialect texts (p.seats own condition having) := by
  have filtered := (h.head.append h.joinList).append
    (wordedIn_clause (.word (by decide) : Phrase p.dialect " WHERE ") h.condition)
  have grouped := (filtered.append
    (wordedIn_listClause (.word (by decide) : Phrase p.dialect " GROUP BY ") h.groups)).append
    (wordedIn_clause (.word (by decide) : Phrase p.dialect " HAVING ") h.having)
  have whole := (grouped.append h.orderClause).append p.wordedIn_pageClause
  rw [mul_one, mul_one] at whole
  exact whole

end WordedIn

end Plan

namespace Resolver

/-- A plan is drawn up for fields, in their dialect and with their joins, and its conditions have these rows. -/
structure Draws (r : Resolver) (texts : List Bytes) (condition having : Language Seat) (plan : Plan) : Prop where
  dialect : plan.dialect = r.dialect
  joins : plan.joins = r.joins.clauses
  worded : plan.WordedIn texts r.own condition having

theorem Draws.wordedIn_toSql {condition having : Language Seat} {plan : Plan}
    (h : r.Draws texts condition having plan) :
    plan.toSql.WordedIn r.dialect texts (plan.seats r.own condition having) := by
  rw [← h.dialect]
  exact h.worded.toSql

end Resolver

namespace Resolver.WordedIn

variable (hr : r.WordedIn texts)
include hr

/-- What is selected for a field has no text but the field's. -/
theorem selectionOf {g : Field} (mem : g ∈ r.known) {item : SelectItem} (h : r.selectionOf g = .ok item) :
    item.expression.WordedIn r.dialect texts (r.own item.expression) := by
  unfold Resolver.selectionOf at h
  have worded := hr.fields g mem
  split at h
  · next s origin =>
    split_ifs at h
    · cases h
      exact worded.selected.of_row (.selected mem)
    · obtain ⟨expression, made, h⟩ := Checked.bind_eq_ok.mp h
      cases h
      exact (Subquery.wordedIn_toSql made (worded.filter s origin)).of_row (.fetched mem origin made)
  · cases h
    exact worded.selected.of_row (.selected mem)

theorem selections {select : List Bytes} {items : List SelectItem}
    (h : (r.chosenFields select).mapM r.selectionOf = .ok items) :
    ∀ item ∈ items, item.expression.WordedIn r.dialect texts (r.own item.expression) := by
  intro item mem
  obtain ⟨g, chosen, made⟩ := Checked.exists_of_mem_mapM h mem
  obtain ⟨known, -⟩ := mem_selectable.mp (mem_chosenFields chosen)
  exact hr.selectionOf (mem_known_of_mem_fields known) made

variable {select : List SelectItem} {condition : Language Seat}

/-- A plan over the rows of a request that is neither grouped nor in an order. -/
theorem plan_of_rows
    (selected : ∀ item ∈ select, item.expression.WordedIn r.dialect texts (r.own item.expression))
    (h : f.WordedIn r.dialect texts condition) :
    ({ r.basePlan with select, condition := f } : Plan).WordedIn texts r.own condition 1 where
  select := selected
  joins := hr.joins
  condition := h
  groupBy := List.forall_mem_nil _
  having := Fragment.wordedIn_empty
  order := List.forall_mem_nil _

theorem countPlan (h : f.WordedIn r.dialect texts condition) : r.Draws texts condition 1 (r.countPlan f) :=
  ⟨rfl, rfl, hr.plan_of_rows (List.forall_mem_singleton.mpr own_number) h⟩

theorem dataPlan {plan : Plan} {paging : Paging}
    (selected : ∀ item ∈ select, item.expression.WordedIn r.dialect texts (r.own item.expression))
    (h : f.WordedIn r.dialect texts condition) (made : r.dataPlan p select f = .ok (plan, paging)) :
    r.Draws texts (condition * Seat.rows (r.ContinuationSeats p)) 1 plan := by
  unfold Resolver.dataPlan at made
  split at made
  · next token asked =>
    obtain ⟨k, hk, made⟩ := Checked.bind_eq_ok.mp made
    cases made
    rw [← asked] at hk
    obtain ⟨order, continuation⟩ := hr.keyset hk
    have both := Fragment.wordedIn_all (.cons h (.cons continuation .nil))
    rw [List.prod_pair] at both
    refine ⟨rfl, rfl, { hr.plan_of_rows selected both with select := ?_, order := order }⟩
    rw [List.forall_mem_append, List.forall_mem_map]
    exact ⟨selected, order⟩
  · cases made
    exact ⟨rfl, rfl, { hr.plan_of_rows selected (h.mul_of_nil_mem .first) with order := hr.lenientOrder }⟩

end Resolver.WordedIn

/-! ## The walk down a tree -/

theorem TreeWalk.limit_suffix (walk : TreeWalk) (d : Dialect) (before : Bytes) :
    walk.limit d <:+ before ++ (d.quoteName treeName ++ Ascii.dot :: d.quoteName walk.depthName)
      ++ Bytes.ofString " < " := by
  refine ⟨before, ?_⟩
  unfold limit
  simp only [List.append_assoc]
  rfl

namespace Resolver

/-- The statement of a walk selects the rows found, in an order; the scope stands between, if there is one. -/
theorem exists_walkStatement_eq (texts : List Bytes) {scope statement : Fragment}
    (h : r.walkStatement scope = .ok statement) :
    ∃ walk rows order, r.table.walk = some walk
      ∧ rows.WordedIn r.dialect texts
          (Seat.rows (r.RootSeats walk) * {[⟨walk.limit r.dialect, .int walk.maxDepth.toInt, ")"⟩]})
      ∧ Phrase r.dialect order
      ∧ statement = (if scope.isEmpty then rows else rows.add " WHERE " ++ scope).add order := by
  unfold walkStatement at h
  obtain ⟨walk, hwalk, h⟩ := Checked.bind_eq_ok.mp h
  obtain ⟨parent, -, h⟩ := Checked.bind_eq_ok.mp h
  obtain ⟨child, -, h⟩ := Checked.bind_eq_ok.mp h
  obtain ⟨roots, hroots, h⟩ := Checked.bind_eq_ok.mp h
  cases h
  have tree : Phrase r.dialect (r.dialect.quoteName TreeWalk.treeName) := .name _
  have base : Phrase r.dialect (r.dialect.quoteName r.table.base) := .name _
  have root : Phrase r.dialect (r.dialect.quoteName TreeWalk.rootName) := .name _
  have next : Phrase r.dialect (r.dialect.quoteName TreeWalk.childName) := .name _
  have inTree (column : Bytes) :
      Phrase r.dialect (r.dialect.quoteName TreeWalk.treeName ++ Ascii.dot :: r.dialect.quoteName column) :=
    tree.append (.append (.word (by decide) : Phrase r.dialect [Ascii.dot]) (.name column))
  have depth := inTree walk.depthName
  have path := inTree walk.pathName
  have key := inTree child
  have ifPath {g : Fragment} (h : g.WordedIn r.dialect texts 1) :
      (if (!walk.pathName.isEmpty) = true then g else Fragment.empty).WordedIn r.dialect texts 1 := by
    split_ifs
    · exact h
    · exact Fragment.wordedIn_empty
  have comma : (Fragment.text ", ").WordedIn r.dialect texts 1 := Fragment.wordedIn_text texts (.word (by decide))
  have keyText (table : Bytes) : (asSqlText r.dialect (walkColumn r.dialect table child)).WordedIn r.dialect texts 1 :=
    wordedIn_castText (Fragment.wordedIn_identifier r.dialect _)
  -- The rows that the walk starts with.
  have rootFields := (((((.word (by decide) : Phrase r.dialect "WITH RECURSIVE ").append tree).append
    (.word (by decide) : Phrase r.dialect " AS (SELECT ")).append root).append
    (.word (by decide) : Phrase r.dialect ".*, 0 AS ")).append (.name walk.depthName)
  have rootPath := (((keyText TreeWalk.rootName).behind comma).add (.word (by decide) : Phrase r.dialect " AS ")).add
    (.name walk.pathName)
  have rootTable := ((((.word (by decide) : Phrase r.dialect " FROM ").append base).append
    (.word (by decide) : Phrase r.dialect " ")).append root).append (.word (by decide) : Phrase r.dialect " WHERE ")
  have rootsPart := (WordedIn.rootCondition hroots).behind
    (((ifPath rootPath).behind (Fragment.wordedIn_text texts rootFields)).add rootTable)
  -- The children of the rows found so far, down to the greatest depth.
  have nextFields := ((((.word (by decide) : Phrase r.dialect " UNION ALL SELECT ").append next).append
    (.word (by decide) : Phrase r.dialect ".*, ")).append depth).append (.word (by decide) : Phrase r.dialect " + 1")
  have nextPath := (keyText TreeWalk.childName).behind
    ((comma.add path).add (.word (by decide) : Phrase r.dialect " || '/' || "))
  have nextTables := ((((((.word (by decide) : Phrase r.dialect " FROM ").append base).append
    (.word (by decide) : Phrase r.dialect " ")).append next).append
    (.word (by decide) : Phrase r.dialect " INNER JOIN ")).append tree).append
    (.word (by decide) : Phrase r.dialect " ON ")
  have nextDepth := ((((.word (by decide) : Phrase r.dialect " = ").append key).append
    (.word (by decide) : Phrase r.dialect " WHERE ")).append depth).append (.word (by decide) : Phrase r.dialect " < ")
  have children : (walkColumn r.dialect TreeWalk.childName parent).WordedIn r.dialect texts 1 :=
    Fragment.wordedIn_identifier r.dialect _
  have stepPart := (children.behind
    (((ifPath nextPath).behind (Fragment.wordedIn_text texts nextFields)).add nextTables)).add nextDepth
  have limited (before : Bytes) := (stepPart.at before _).bind ⟨walk.limit r.dialect, .int walk.maxDepth.toInt, ")"⟩
    (List.suffix_append_of_suffix (List.suffix_append_of_suffix (walk.limit_suffix ..)))
    (List.prefix_refl (Bytes.ofString ")" ++ []))
  -- What is selected from them.
  have walked := Fragment.WordedAt.add (.append (rootsPart.at [] _) (limited _)) (.word (by decide))
  rw [one_mul] at walked
  have rows := Fragment.WordedIn.add walked ((.word (by decide) : Phrase r.dialect " SELECT * FROM ").append tree)
  have order := (((.word (by decide) : Phrase r.dialect " ORDER BY ").append depth).append
    (.word (by decide) : Phrase r.dialect ", ")).append key
  exact ⟨walk, _, _, walk_of_requireWalk hwalk, rows, order, rfl⟩

end Resolver

namespace Table

variable {t : Table} {d : Dialect} {p : Params} {c : Context} {clock : Instant} {e : Table} {plan : Plan}
variable {statement : Fragment}

/-- The statements for a description: those that answer a request, that count its rows, the grouped one, and the walk
down the tree of the table. -/
inductive Produces (t : Table) (d : Dialect) (p : Params) (c : Context) (clock : Instant) : Fragment → Prop where
  | answer {plan : Plan} (answers : t.Answers d p c clock plan) : Produces t d p c clock plan.toSql
  | groups {plan : Plan} (made : t.compileGrouped d p c clock = .ok plan) : Produces t d p c clock plan.toSql
  | tree {statement : Fragment} (made : t.compileTree d p c = .ok statement) : Produces t d p c clock statement

/-- The rows of seats that the statements for a request have, by the description that the caller gets: those of what is
selected, of what the rows are told by, and of what they are grouped and sorted by. In the walk down the tree its base
table goes by another name. -/
inductive Seats (t : Table) (d : Dialect) (p : Params) (c : Context) (clock : Instant) :
    Fragment → List Seat → Prop where
  | answer {plan : Plan} (answers : t.Answers d p c clock plan) {e : Table} {r : Resolver} (he : t.effective c = .ok e)
      (hr : Resolver.ofTable e d = .ok r) {row : List Seat}
      (mem : row ∈ plan.seats r.own (r.conditionSeats p c (c.today clock) * Seat.rows (r.ContinuationSeats p)) 1) :
      Seats t d p c clock plan.toSql row
  | groups {plan : Plan} (made : t.compileGrouped d p c clock = .ok plan) {e : Table} {r : Resolver}
      (he : t.effective c = .ok e) (hr : Resolver.ofTable e d = .ok r) {groupBy : GroupBy}
      (described : r.table.groupBy = some groupBy) {row : List Seat}
      (mem : row ∈ plan.seats r.own (r.conditionSeats p c (c.today clock)) (r.havingSeats groupBy)) :
      Seats t d p c clock plan.toSql row
  | tree {statement : Fragment} (made : t.compileTree d p c = .ok statement) {e : Table} {r : Resolver}
      (he : t.effective c = .ok e) (hr : Resolver.ofTableAs TreeWalk.treeName e d = .ok r) {walk : TreeWalk}
      (described : r.table.walk = some walk) {row : List Seat} (mem : row ∈ r.walkSeats walk c p.includeDeleted) :
      Seats t d p c clock statement row

/-- The fields that a caller gets have no text but those that the description has written into SQL. -/
theorem wordedIn_ofTableAs {qualifier : Bytes} (he : t.effective c = .ok e)
    (hr : Resolver.ofTableAs qualifier e d = .ok r) : r.WordedIn t.writtenTexts := by
  have worded := (Resolver.describes hr).wordedIn
  rw [eq_visibleTo_of_effective he, writtenTexts_visibleTo] at worded
  exact worded

/-- The plans that answer a request are drawn up for the fields that its caller gets. -/
theorem draws_of_answers (h : t.Answers d p c clock plan) :
    ∃ e r, t.effective c = .ok e ∧ Resolver.ofTable e d = .ok r
      ∧ r.Draws t.writtenTexts (r.conditionSeats p c (c.today clock) * Seat.rows (r.ContinuationSeats p)) 1 plan := by
  cases h with
  | answer made mem =>
    unfold compile at made
    obtain ⟨e, he, made⟩ := Checked.bind_eq_ok.mp made
    obtain ⟨r, hr, made⟩ := Checked.bind_eq_ok.mp made
    obtain ⟨condition, hcondition, made⟩ := Checked.bind_eq_ok.mp made
    obtain ⟨select, hselect, made⟩ := Checked.bind_eq_ok.mp made
    obtain ⟨⟨data, paging⟩, hdata, made⟩ := Checked.bind_eq_ok.mp made
    obtain ⟨aggregations, haggregations, made⟩ := Checked.bind_eq_ok.mp made
    cases made
    have fields : r.WordedIn t.writtenTexts := wordedIn_ofTableAs he hr
    have rows := fields.condition hcondition
    refine ⟨e, r, he, hr, ?_⟩
    simp only [Compiled.plans, List.mem_append, List.mem_cons, List.not_mem_nil, or_false] at mem
    rcases mem with (rfl | rfl) | mem
    · exact fields.dataPlan (fields.selections hselect) rows hdata
    · exact fields.countPlan (rows.mul_of_nil_mem .first)
    · obtain ⟨items, hitems, rfl⟩ := Resolver.eq_of_mem_aggregationPlan haggregations mem
      exact ⟨rfl, rfl, fields.plan_of_rows (fields.aggregateSelection hitems) (rows.mul_of_nil_mem .first)⟩
  | count made =>
    unfold compileCount at made
    obtain ⟨e, he, made⟩ := Checked.bind_eq_ok.mp made
    obtain ⟨r, hr, made⟩ := Checked.bind_eq_ok.mp made
    obtain ⟨condition, hcondition, made⟩ := Checked.bind_eq_ok.mp made
    cases made
    have fields : r.WordedIn t.writtenTexts := wordedIn_ofTableAs he hr
    exact ⟨e, r, he, hr, fields.countPlan ((fields.condition hcondition).mul_of_nil_mem .first)⟩

theorem draws_of_compileGrouped (made : t.compileGrouped d p c clock = .ok plan) :
    ∃ e r groupBy, t.effective c = .ok e ∧ Resolver.ofTable e d = .ok r ∧ r.table.groupBy = some groupBy
      ∧ r.Draws t.writtenTexts (r.conditionSeats p c (c.today clock)) (r.havingSeats groupBy) plan := by
  unfold compileGrouped at made
  obtain ⟨e, he, made⟩ := Checked.bind_eq_ok.mp made
  dsimp only at made
  split at made
  · cases made
  · next groupBy described =>
    obtain ⟨r, hr, made⟩ := Checked.bind_eq_ok.mp made
    obtain ⟨grouping, hgrouping, made⟩ := Checked.bind_eq_ok.mp made
    obtain ⟨condition, hcondition, made⟩ := Checked.bind_eq_ok.mp made
    obtain ⟨order, horder, made⟩ := Checked.bind_eq_ok.mp made
    cases made
    have fields : r.WordedIn t.writtenTexts := wordedIn_ofTableAs he hr
    have described : r.table.groupBy = some groupBy := by
      rw [(Resolver.describes hr).table]
      exact described
    obtain ⟨select, groups, having⟩ := fields.grouping described hgrouping
    refine ⟨e, r, groupBy, he, hr, described, rfl, rfl, ?_⟩
    exact { fields.plan_of_rows select (fields.condition hcondition) with
      groupBy := groups, having := having, order := fields.groupedOrder described hgrouping horder }

/-- The statement of a walk, with the scope between its rows and their order. -/
theorem exists_of_compileTree (made : t.compileTree d p c = .ok statement) :
    ∃ e r scope walk rows order, t.effective c = .ok e ∧ Resolver.ofTableAs TreeWalk.treeName e d = .ok r
      ∧ r.scope c p.includeDeleted = .ok scope ∧ r.table.walk = some walk
      ∧ rows.WordedIn d t.writtenTexts
          (Seat.rows (r.RootSeats walk) * {[⟨walk.limit d, .int walk.maxDepth.toInt, ")"⟩]})
      ∧ Phrase d order ∧ statement = (if scope.isEmpty then rows else rows.add " WHERE " ++ scope).add order := by
  unfold compileTree at made
  obtain ⟨e, he, made⟩ := Checked.bind_eq_ok.mp made
  obtain ⟨r, hr, made⟩ := Checked.bind_eq_ok.mp made
  obtain ⟨scope, hscope, made⟩ := Checked.bind_eq_ok.mp made
  obtain ⟨walk, rows, order, described, hrows, horder, same⟩ := Resolver.exists_walkStatement_eq t.writtenTexts made
  rw [(Resolver.describes hr).dialect] at hrows horder
  exact ⟨e, r, scope, walk, rows, order, he, hr, hscope, described, hrows, horder, same⟩

theorem wordedIn_of_compileTree (made : t.compileTree d p c = .ok statement) :
    ∃ e r walk, t.effective c = .ok e ∧ Resolver.ofTableAs TreeWalk.treeName e d = .ok r ∧ r.table.walk = some walk
      ∧ statement.WordedIn d t.writtenTexts (r.walkSeats walk c p.includeDeleted) := by
  obtain ⟨e, r, scope, walk, rows, order, he, hr, hscope, described, hrows, horder, rfl⟩ := exists_of_compileTree made
  have dialect : r.dialect = d := (Resolver.describes hr).dialect
  have restricted := (wordedIn_ofTableAs he hr).scope hscope
  rw [dialect] at restricted
  refine ⟨e, r, walk, he, hr, described, ?_⟩
  unfold Resolver.walkSeats
  rw [dialect]
  refine .add ?_ horder
  split_ifs with unrestricted
  · exact hrows.mul_of_nil_mem (restricted.nil_mem unrestricted)
  · exact (hrows.add (.word (by decide))).append restricted

/-- Whatever a request asks for, a statement has no text but those that the description has written into SQL, and its
values are in a row of its seats. -/
theorem wordedIn_of_produces (h : t.Produces d p c clock f) :
    f.WordedIn d t.writtenTexts (Seat.rows (t.Seats d p c clock f)) := by
  cases h with
  | answer answers =>
    obtain ⟨e, r, he, hr, draws⟩ := draws_of_answers answers
    have worded := draws.wordedIn_toSql
    rw [(Resolver.describes hr).dialect] at worded
    exact worded.mono fun row => .answer answers he hr
  | groups made =>
    obtain ⟨e, r, groupBy, he, hr, described, draws⟩ := draws_of_compileGrouped made
    have worded := draws.wordedIn_toSql
    rw [(Resolver.describes hr).dialect] at worded
    exact worded.mono fun row => .groups made he hr described
  | tree made =>
    obtain ⟨e, r, walk, he, hr, described, worded⟩ := wordedIn_of_compileTree made
    exact worded.mono fun row => .tree made he hr described

theorem builtFrom_of_produces (h : t.Produces d p c clock f) : f.BuiltFrom t.writtenTexts :=
  (wordedIn_of_produces h).builtFrom

/-- In every statement, placeholders and values go together. The statement for a validated description whose trusted
SQL is quiet is put together from values and quiet texts; and in whatever way it is, its placeholders stand where the
values were put, as many and in the same order, and a dialect that numbers placeholders gets its numbers there and
all other bytes as they are. The bytes of names, values and tokens do not matter. And the values are those of a row of
seats that follows from what was asked and described, in which each placeholder stands in the seat of its number: the
first beside the column, the sign and the words that the first value belongs to, the second beside those of the second,
and so on. -/
theorem placeholders_matched {catalog : Option Catalog} (valid : t.validate catalog = .ok ())
    (trusted : ∀ s ∈ t.trustedTexts, Placeholder.Quiet s.sql) (h : t.Produces d p c clock f) :
    f.InStep
      ∧ (∀ segments, f.MadeOf segments → (∀ segment ∈ segments, segment.IsQuiet) → f.Matched segments)
      ∧ ∃ row, t.Seats d p c clock f row ∧ f.Seated row := by
  have quiet := (quiet_of_validate valid trusted).writtenTexts
  refine ⟨(builtFrom_of_produces h).inStep quiet, fun _ made quiet => made.matched quiet, ?_⟩
  obtain ⟨segments, row, made, worded, place, seated⟩ := wordedIn_of_produces h
  exact ⟨row, place, (made.matched fun segment mem => (worded segment mem).isAmong.isQuiet quiet).seated seated⟩

/-- How many letters a person has sent. -/
def letters : Subquery where
  name := "letters"
  table := "letters"
  conditions := [{ left := .column "letters.person", right := .column "people.id" },
    { left := .literal (.str "sent"), right := .column "letters.state" }]

/-- A table of people, with quotes and question marks in a name and in trusted SQL. -/
def people : Table where
  name := "people"
  base := "people"
  columns := [{ name := "who's?", field := "name" }, { name := "age", type := .number },
    { name := "nick", computed := true, expression := some ⟨"coalesce(nick, '?')"⟩ }]
  subqueries := [letters]

/-- The people of two ages with some letters, but for those of a name, which has a quote and a question mark too. -/
def whoWrote : Params where
  filters := [("age", { op := .isIn, value := .arr [.int 30, .int 40] }),
    ("who's?", { op := .neq, value := .str "O'Neil?" }), ("letters", { op := .gt, value := .int 2 })]

/-- The seats of what is asked of people. The filter on their letters has that of the subquery's literal before its
own. -/
def askedSeats : List Seat :=
  [⟨"\"people\".\"age\" IN (", .int 30, ", ?)"⟩, ⟨"\"people\".\"age\" IN (?, ", .int 40, ")"⟩,
    ⟨"\"people\".\"name\" <> ", .str "O'Neil?", []⟩, ⟨[], .str "sent", " = \"letters\".\"state\""⟩,
    ⟨Bytes.ofString "(SELECT count(*) FROM \"letters\" WHERE \"letters\".\"person\" = \"people\".\"id\""
      ++ " AND ? = \"letters\".\"state\") > ", .int 2, []⟩]

/-- There is no other row for what is asked. -/
theorem conditionSeats_people {r : Resolver} (hr : Resolver.ofTable people .postgresql = .ok r) (day : Day) :
    r.conditionSeats whoWrote {} day ≤ {askedSeats} := by
  have table : r.table = people := (Resolver.describes hr).table
  have shown : Seat.rows (r.DeletedSeats false) ≤ 1 := by
    rintro row (_ | enabled)
    · rfl
    · rw [table] at enabled
      cases enabled
  have shared : Seat.rows (r.TenantSeats {}) ≤ 1 := by
    rintro row (_ | enabled)
    · rfl
    · rw [table] at enabled
      cases enabled
  have unsearched : Seat.rows (r.SearchSeats none) ≤ 1 := by
    rintro row (_ | ⟨_, given⟩ | ⟨_, given⟩)
    · rfl
    · cases given
    · cases given
  have filters : (whoWrote.filters.map fun f =>
      Condition.seats .request r {} day { field := f.1, op := f.2.op, value := f.2.value }).prod = {askedSeats} := by
    cases hr
    simp only [whoWrote, List.map_cons, List.map_nil, List.prod_cons, List.prod_nil, mul_one]
    rw [Condition.seats_eq rfl rfl rfl, Condition.seats_eq rfl rfl rfl, Condition.seats_eq rfl rfl rfl]
    change ({[]} * {askedSeats.take 2} * ({[]} * {[askedSeats[2]]} * ({[askedSeats[3]]} * {[askedSeats[4]]})) :
      Language Seat) = _
    simp only [Seat.singleton_mul]
    rfl
  unfold Resolver.conditionSeats Resolver.scopeSeats
  rw [table, filters]
  change 1 * Seat.rows _ * Seat.rows _ * 1 * 1 * _ * 1 * Seat.rows _ ≤ _
  rw [one_mul, mul_one, mul_one, mul_one]
  refine (mul_le_mul' (mul_le_mul' (mul_le_mul' shown shared) le_rfl) unsearched).trans_eq ?_
  rw [one_mul, one_mul, mul_one]

/-- So the values for these people have one order: those of what is selected, and then those of what is asked. -/
theorem values_of_seats_people {compiled : Compiled} (made : people.compile .postgresql whoWrote {} ⟨0⟩ = .ok compiled)
    {row : List Seat} (place : people.Seats .postgresql whoWrote {} ⟨0⟩ compiled.data.toSql row) :
    row.map Seat.value = [.str "sent", .int 30, .int 40, .str "O'Neil?", .str "sent", .int 2] := by
  generalize same : compiled.data.toSql = f at place
  cases place with
  | groups grouped => cases grouped
  | tree walked => cases walked
  | @answer plan answers e r he hr row mem =>
    have full : people.effective {} = .ok people := rfl
    cases full.symm.trans he
    cases answers with
    | count counted =>
      cases made
      cases counted
      exact absurd (congrArg Fragment.sql same) (by decide +kernel)
    | answer again among =>
      cases made.symm.trans again
      simp only [Compiled.plans, List.mem_append, List.mem_cons, List.not_mem_nil, or_false] at among
      rcases among with (rfl | rfl) | none
      · have single : Seat.rows (r.ContinuationSeats whoWrote) ≤ 1 := by
          rintro row (_ | ⟨-, decoded⟩)
          · rfl
          · cases decoded
        have groups : compiled.data.groupBy = [] := by
          cases made
          rfl
        have order : compiled.data.order = [] := by
          cases made
          rfl
        unfold Plan.seats at mem
        rw [groups, order, List.map_nil, List.map_nil, List.prod_nil, mul_one, mul_one, mul_one] at mem
        obtain ⟨first, selected, rest, asked, rfl⟩ := Language.mem_mul.mp mem
        have asked := (mul_le_mul' (conditionSeats_people hr _) single) asked
        rw [mul_one] at asked
        rw [List.map_append, (wordedIn_ofTableAs full hr).values_of_own _ selected, (asked : rest = askedSeats)]
        cases made
        rfl
      · cases made
        exact absurd (congrArg Fragment.sql same) (by decide +kernel)
      · cases made
        cases none

/-- The statement for these people has six values, each where it belongs: the literal of the subquery stands in what is
selected and again in the filter. No other values, nor these in another order, belong there. -/
theorem placeholders_matched_people :
    ∃ compiled segments row, people.compile .postgresql whoWrote {} ⟨0⟩ = .ok compiled
      ∧ compiled.data.toSql.Matched segments
      ∧ people.Seats .postgresql whoWrote {} ⟨0⟩ compiled.data.toSql row ∧ compiled.data.toSql.Seated row
      ∧ (∀ row params, people.Seats .postgresql whoWrote {} ⟨0⟩ compiled.data.toSql row →
          Fragment.Seated { compiled.data.toSql with params } row → params = compiled.data.toSql.params)
      ∧ compiled.data.toSql.params = [.str "sent", .int 30, .int 40, .str "O'Neil?", .str "sent", .int 2]
      ∧ compiled.data.toSql.render .postgresql = Bytes.ofString
          "SELECT \"people\".\"name\" AS \"who's?\", \"people\".\"age\" AS \"age\", (coalesce(nick, '?')) AS \"nick\","
        ++ " (SELECT count(*) FROM \"letters\" WHERE \"letters\".\"person\" = \"people\".\"id\""
        ++ " AND $1 = \"letters\".\"state\") AS \"letters\" FROM \"people\""
        ++ " WHERE \"people\".\"age\" IN ($2, $3) AND \"people\".\"name\" <> $4"
        ++ " AND (SELECT count(*) FROM \"letters\" WHERE \"letters\".\"person\" = \"people\".\"id\""
        ++ " AND $5 = \"letters\".\"state\") > $6 LIMIT 10" := by
  obtain ⟨compiled, made⟩ : ∃ compiled, people.compile .postgresql whoWrote {} ⟨0⟩ = .ok compiled := ⟨_, rfl⟩
  have valid : people.validate none = .ok () := rfl
  have trusted : ∀ s ∈ people.trustedTexts, Placeholder.Quiet s.sql := List.forall_mem_singleton.mpr (by decide)
  have produced : people.Produces .postgresql whoWrote {} ⟨0⟩ compiled.data.toSql :=
    .answer (.answer made List.mem_cons_self)
  obtain ⟨⟨segments, put, quiet⟩, matched, row, place, seated⟩ := placeholders_matched valid trusted produced
  have values := values_of_seats_people made place
  refine ⟨compiled, segments, row, made, matched segments put quiet, place, seated, fun other params among given => ?_,
    seated.values.trans values, ?_⟩
  · rw [seated.values, values, ← values_of_seats_people made among]
    exact given.values
  · cases made
    decide +kernel

end Table

end TableQuery

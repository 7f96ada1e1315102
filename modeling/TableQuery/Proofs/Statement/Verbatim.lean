import TableQuery.Proofs.Sql.Verbatim
import TableQuery.Proofs.Statement.Step

/-!
# Trusted SQL in statements

A description has three places for SQL of its author's: the expression of a computed column, the condition of a join and
the filter of a subquery. Each goes into statements in parentheses, and nothing but values and quiet texts goes between
them. So a statement comes out as it was put together unless a dialect numbers its placeholders and one of these texts
has a question mark outside of quotes.

## What is proved

`Table.trusted_verbatim_iff`: what every statement for a description is put together from, in what order its parts stand
in it, and when it comes out with the trusted SQL as it was written and with its values numbered from 1.
-/

namespace TableQuery

open Placeholder

/-! ## The parts of a plan -/

namespace Plan

/-- The fragments of a plan, which its statement puts between keywords and names. -/
def parts (p : Plan) : List Fragment :=
  p.select.map SelectItem.expression ++ p.joins.map JoinClause.condition ++ p.condition :: p.groupBy
    ++ p.having :: p.order.map OrderTerm.expression

variable {texts : List Bytes} {p : Plan} {part : Fragment}

theorem expression_mem_parts {item : SelectItem} (mem : item ∈ p.select) : item.expression ∈ p.parts := by
  unfold parts
  simp only [List.mem_append, List.mem_map]
  exact .inl (.inl (.inl ⟨item, mem, rfl⟩))

theorem condition_mem_parts {join : JoinClause} (mem : join ∈ p.joins) : join.condition ∈ p.parts := by
  unfold parts
  simp only [List.mem_append, List.mem_map]
  exact .inl (.inl (.inr ⟨join, mem, rfl⟩))

theorem holds_clause {keyword : Bytes} (quiet : Quiet keyword) (written : part.isEmpty = false) :
    (clause keyword part).Holds part texts := by
  unfold clause
  rw [if_neg (by rw [written]; exact Bool.false_ne_true)]
  exact .after (Fragment.builtFrom_text texts quiet) (.refl part texts)

theorem holds_listClause {keyword : Bytes} (quiet : Quiet keyword) {content : List Fragment}
    (h : ∀ e ∈ content, e.BuiltFrom texts) (mem : part ∈ content) : (listClause keyword content).Holds part texts := by
  have some : ¬content.isEmpty = true := by
    rw [List.isEmpty_iff]
    exact List.ne_nil_of_mem mem
  unfold listClause
  rw [if_neg some]
  exact .after (Fragment.builtFrom_text texts quiet) (Fragment.holds_join (by decide) h mem (.refl part texts))

namespace WordedIn

variable {own : Fragment → Language Seat} {condition having : Language Seat}
variable (h : p.WordedIn texts own condition having)
include h

theorem holds_selection {item : SelectItem} (mem : item ∈ p.select) : p.selection.Holds item.expression texts := by
  have some : ¬p.select.isEmpty = true := by
    rw [List.isEmpty_iff]
    exact List.ne_nil_of_mem mem
  have named : (itemToSql p.dialect item).Holds item.expression texts :=
    ((Fragment.Holds.refl _ _).add (by decide)).add (quiet_quoteName p.dialect item.name)
  unfold Plan.selection
  rw [if_neg some]
  exact Fragment.holds_join (by decide) h.items.builtFrom (List.mem_map_of_mem mem) named

theorem holds_joinList {join : JoinClause} (mem : join ∈ p.joins) : p.joinList.Holds join.condition texts := by
  have clauses (other : JoinClause) (among : other ∈ p.joins) : (other.toSql p.dialect).BuiltFrom texts :=
    (JoinClause.wordedIn_toSql (h.joins other among)).builtFrom
  have named : (join.toSql p.dialect).Holds join.condition texts := by
    obtain ⟨named, built, joined⟩ := join.exists_toSql_eq p.dialect texts
    rw [joined]
    exact .after built.builtFrom (.refl _ texts)
  exact Fragment.holds_foldl mem (fun f other among built => (built.add (by decide)).append (clauses other among))
    (fun f other among held => (held.add (by decide)).append (clauses other among))
    (fun f built => .after (built.add (by decide)) named) Fragment.builtFrom_empty

theorem holds_order {term : OrderTerm} (mem : term ∈ p.order) :
    (if p.order.isEmpty then Fragment.empty else
      Fragment.text " ORDER BY " ++ OrderTerm.listToSql p.order).Holds term.expression texts := by
  have some : ¬p.order.isEmpty = true := by
    rw [List.isEmpty_iff]
    exact List.ne_nil_of_mem mem
  have directed := (Fragment.Holds.refl term.expression texts).add
    (OrderTerm.phrase_keyword p.dialect term.direction).quiet
  have terms := OrderTerm.wordedIn_terms h.order
  rw [if_neg some]
  exact .after (Fragment.builtFrom_text texts (by decide))
    (Fragment.holds_join (by decide) terms.builtFrom (List.mem_map_of_mem mem) directed)

/-- The statement of a plan has each of its parts as a part, unless it is a condition without text. -/
theorem holds (mem : part ∈ p.parts) (written : part.isEmpty = false) : p.toSql.Holds part texts := by
  have joins := h.joinList.builtFrom
  have filter := (wordedIn_clause (.word (by decide) : Phrase _ " WHERE ") h.condition).builtFrom
  have groups := (wordedIn_listClause (.word (by decide) : Phrase _ " GROUP BY ") h.groups).builtFrom
  have having := (wordedIn_clause (.word (by decide) : Phrase _ " HAVING ") h.having).builtFrom
  have order := h.orderClause.builtFrom
  have page : p.pageClause.BuiltFrom texts := p.wordedIn_pageClause.builtFrom
  have joined := h.head.builtFrom.append joins
  simp only [parts, List.mem_append, List.mem_cons, List.mem_map] at mem
  rcases mem with ((⟨item, mem, rfl⟩ | ⟨join, mem, rfl⟩) | rfl | mem) | rfl | ⟨term, mem, rfl⟩
  · have head := ((Fragment.Holds.after (Fragment.builtFrom_text texts (by decide : Quiet "SELECT "))
      (h.holds_selection mem)).add (by decide : Quiet " FROM ")).add (quiet_quoteName p.dialect p.base)
    exact (((((head.append joins).append filter).append groups).append having).append order).append page
  · have held := Fragment.Holds.after h.head.builtFrom (h.holds_joinList mem)
    exact ((((held.append filter).append groups).append having).append order).append page
  · have filtered := Fragment.Holds.after joined (holds_clause (by decide : Quiet " WHERE ") written)
    exact (((filtered.append groups).append having).append order).append page
  · have content : ∀ e ∈ p.groupBy, e.BuiltFrom texts := fun e among => (h.groupBy e among).builtFrom
    have grouped := Fragment.Holds.after (joined.append filter)
      (holds_listClause (by decide : Quiet " GROUP BY ") content mem)
    exact ((grouped.append having).append order).append page
  · have had := Fragment.Holds.after ((joined.append filter).append groups)
      (holds_clause (by decide : Quiet " HAVING ") written)
    exact (had.append order).append page
  · have ordered := Fragment.Holds.after (((joined.append filter).append groups).append having) (h.holds_order mem)
    exact ordered.append page

end WordedIn

end Plan

/-! ## The trusted SQL of fields and joins -/

variable {texts : List Bytes} {d : Dialect} {s : TrustedSql}

namespace Field

/-- Where a field is selected, its author's SQL is: the expression of a computed column, or the filter of a subquery
that has no conditions of another form. -/
inductive Writes (f : Field) : TrustedSql → Prop
  | computed {k : Column} {s : TrustedSql} (origin : f.origin = .column k) (computed : k.computed = true)
      (expression : k.expression = some s) : Writes f s
  | filter {q : Subquery} {s : TrustedSql} (origin : f.origin = .subquery q) (only : q.predicate = none)
      (alone : q.conditions = []) (filter : q.filter = some s) (text : s.sql ≠ []) : Writes f s

theorem holds_applyTransforms {names : List Bytes} {e : Fragment}
    (written : ∀ name ∈ names, name ++ [Ascii.leftParen] ∈ texts) : (applyTransforms names e).Holds e texts :=
  List.foldlRecOn (motive := (Fragment.Holds · e texts)) names _ (.refl e texts) fun _ inside name mem =>
    (Fragment.Holds.after (Fragment.builtFrom_text_of_mem (written name mem)) inside).add (by decide)

end Field

theorem Subquery.holds_toSql {q : Subquery} {f : Fragment} (made : q.toSql d = .ok f) (only : q.predicate = none)
    (alone : q.conditions = []) (filter : q.filter = some s) (text : s.sql ≠ []) :
    f.Holds (Fragment.trusted s) texts := by
  have correlation : q.correlation d = Fragment.trusted s := by
    unfold Subquery.correlation
    rw [only, alone, filter]
    simp [text]
  have table := quiet_quoteName d q.table
  have row := quiet_quoteName d (Ascii.underscore :: q.name)
  have around {before between after : Bytes} (hbefore : Quiet before) (hbetween : Quiet between)
      (hafter : Quiet after) :
      ((Fragment.text (before ++ d.quoteName q.table ++ between) ++ q.correlation d).add after).Holds
        (Fragment.trusted s) texts := by
    rw [correlation]
    exact (Fragment.Holds.after (Fragment.builtFrom_text texts ((hbefore.append table).append hbetween))
      (.refl _ texts)).add hafter
  unfold Subquery.toSql at made
  split at made
  · cases made
    exact around (by decide) (by decide) (by decide)
  · cases made
    exact around (by decide) (by decide) (by decide)
  · obtain ⟨-, -, made⟩ := Checked.bind_eq_ok.mp made
    cases made
    exact around (((by decide : Quiet "(SELECT row_to_json(").append row).append (by decide)) (by decide)
      (((by decide : Quiet " LIMIT 1) ").append row).append (by decide))

namespace Resolver

variable {r : Resolver} {qualifier : Bytes} {t : Table} {f : Field}

/-- What is selected for a computed column has its expression, inside the database functions. -/
theorem Describes.holds_selectExpression (hr : r.Describes qualifier t d) (mem : f ∈ r.known) {k : Column}
    (origin : f.origin = .column k) (computed : k.computed = true) (expression : k.expression = some s) :
    f.selectExpression.Holds (Fragment.trusted s) t.writtenTexts := by
  refine hr.forall_known (P := fun f => f.origin = .column k →
    f.selectExpression.Holds (Fragment.trusted s) t.writtenTexts) ?_ ?_ f mem origin
  · intro c among baseNames table own
    rw [Field.origin_ofColumn] at own
    cases own
    unfold Field.ofColumn
    rw [if_pos computed]
    unfold Field.ofComputed
    rw [expression]
    exact Field.holds_applyTransforms fun name => Table.mem_writtenTexts_of_transform among
  · intro q among f made own
    unfold Field.ofSubquery at made
    split at made
    · cases made
      cases own
    · obtain ⟨e, -, made⟩ := Checked.bind_eq_ok.mp made
      cases made
      cases own

/-- A subquery is selected by its expression, whether or not it fetches a row. -/
theorem Describes.toSql_of_selectionOf (hr : r.Describes qualifier t d) (mem : f ∈ r.known) {q : Subquery}
    (origin : f.origin = .subquery q) {item : SelectItem} (made : r.selectionOf f = .ok item) :
    q.toSql d = .ok item.expression := by
  have scalar : f.origin = .subquery q → f.scalar = true → q.toSql d = .ok f.selectExpression := by
    refine hr.forall_known (P := fun f => f.origin = .subquery q → f.scalar = true →
      q.toSql d = .ok f.selectExpression) ?_ ?_ f mem
    · intro c _ baseNames table own
      rw [Field.origin_ofColumn] at own
      cases own
    · intro q' _ f made own
      unfold Field.ofSubquery at made
      split at made
      · cases made
        nofun
      · obtain ⟨e, he, made⟩ := Checked.bind_eq_ok.mp made
        cases made
        cases own
        exact fun _ => he
  unfold selectionOf at made
  rw [origin] at made
  dsimp only at made
  split_ifs at made with one
  · cases made
    exact scalar origin one
  · obtain ⟨e, he, made⟩ := Checked.bind_eq_ok.mp made
    cases made
    rw [← hr.dialect]
    exact he

/-- What is selected for a field has the SQL of its author. -/
theorem Describes.holds_of_selectionOf (hr : r.Describes qualifier t d) (mem : f ∈ r.known) {item : SelectItem}
    (made : r.selectionOf f = .ok item) (writes : f.Writes s) :
    item.expression.Holds (Fragment.trusted s) t.writtenTexts := by
  cases writes with
  | computed origin computed expression =>
    have shown := hr.holds_selectExpression mem origin computed expression
    unfold selectionOf at made
    rw [origin] at made
    cases made
    exact shown
  | filter origin only alone filter text =>
    exact Subquery.holds_toSql (hr.toSql_of_selectionOf mem origin made) only alone filter text

end Resolver

/-- The trusted condition of a join is the condition of its clause. -/
theorem JoinPlan.exists_clause_of_trusted {t : Table} {plan : JoinPlan} (h : ofTable t d = .ok plan)
    (mem : s ∈ Join.conditionTextsOf t.joins) : ∃ clause ∈ plan.clauses, clause.condition = Fragment.trusted s := by
  rw [← Join.conditionTexts_preorderOf t.base 0, List.mem_flatMap] at mem
  obtain ⟨n, among, written⟩ := mem
  rw [clauses_ofTable h]
  refine ⟨_, List.mem_map_of_mem among, ?_⟩
  show condition d n.parent n.join = _
  unfold condition
  split
  · next trusted raw =>
    rw [raw, Option.mem_toList] at written
    cases written
    rfl
  · next raw =>
    rw [raw, Option.mem_toList] at written
    cases written

/-! ## Statements for a description -/

namespace Table

variable {t : Table} {p : Params} {c : Context} {clock : Instant}

/-- What a description has written into SQL closes its quotes, if validation accepts it and its trusted SQL does. -/
theorem closed_of_validate {catalog : Option Catalog} (valid : t.validate catalog = .ok ())
    (trusted : ∀ s ∈ t.trustedTexts, Closed s.sql) : ∀ text ∈ t.writtenTexts, Closed text := by
  have opening : Closed [Ascii.leftParen] := by decide
  have closing : Closed [Ascii.rightParen] := by decide
  refine forall_writtenTexts (fun s mem => opening.append ((trusted s mem).append closing)) fun c mem name among => ?_
  exact Closed.append (quiet_transforms_of_validate valid c mem name among).closed opening

/-- The plans for a description: those that answer a request or count its rows, and the grouped one. -/
inductive Plans (t : Table) (d : Dialect) (p : Params) (c : Context) (clock : Instant) : Plan → Prop
  | answer {plan : Plan} (answers : t.Answers d p c clock plan) : Plans t d p c clock plan
  | groups {plan : Plan} (made : t.compileGrouped d p c clock = .ok plan) : Plans t d p c clock plan

/-- Each plan is drawn up for the fields that a caller gets. -/
theorem exists_draws_of_plans {plan : Plan} (h : t.Plans d p c clock plan) :
    ∃ e r condition having, t.effective c = .ok e ∧ Resolver.ofTable e d = .ok r
      ∧ r.Draws t.writtenTexts condition having plan := by
  cases h with
  | answer answers =>
    obtain ⟨e, r, he, hr, draws⟩ := draws_of_answers answers
    exact ⟨e, r, _, _, he, hr, draws⟩
  | groups made =>
    obtain ⟨e, r, groupBy, he, hr, -, draws⟩ := draws_of_compileGrouped made
    exact ⟨e, r, _, _, he, hr, draws⟩

/-- The uses that statements make of trusted SQL. -/
inductive Uses (t : Table) (d : Dialect) (p : Params) (c : Context) (clock : Instant) : Fragment → TrustedSql → Prop
  /-- The condition of a join is in the statement of every plan. -/
  | joined {plan : Plan} (plans : t.Plans d p c clock plan) {s : TrustedSql}
      (mem : s ∈ Join.conditionTextsOf t.joins) : Uses t d p c clock plan.toSql s
  /-- The data select the fields that a request chooses. -/
  | chosen {compiled : Compiled} (made : t.compile d p c clock = .ok compiled) {e : Table} {r : Resolver}
      (he : t.effective c = .ok e) (hr : Resolver.ofTable e d = .ok r) {f : Field} (mem : f ∈ r.chosenFields p.select)
      {s : TrustedSql} (writes : f.Writes s) : Uses t d p c clock compiled.data.toSql s
  /-- A plan has fields in its conditions, its groups and its orders as well. -/
  | part {plan : Plan} (plans : t.Plans d p c clock plan) {part : Fragment} (mem : part ∈ plan.parts) {s : TrustedSql}
      (holds : part.Holds (Fragment.trusted s) t.writtenTexts) : Uses t d p c clock plan.toSql s
  /-- The walk down the tree has fields in its scope. -/
  | tree {statement : Fragment} (made : t.compileTree d p c = .ok statement) {e : Table} {r : Resolver}
      (he : t.effective c = .ok e) (hr : Resolver.ofTableAs TreeWalk.treeName e d = .ok r) {scope : Fragment}
      (hscope : r.scope c p.includeDeleted = .ok scope) {s : TrustedSql}
      (holds : scope.Holds (Fragment.trusted s) t.writtenTexts) : Uses t d p c clock statement s

/-- A part of a plan with trusted SQL in it is a part of the statement. -/
theorem holds_of_part {plan : Plan} (h : t.Plans d p c clock plan) {part : Fragment} (mem : part ∈ plan.parts)
    (holds : part.Holds (Fragment.trusted s) t.writtenTexts) :
    plan.toSql.Holds (Fragment.trusted s) t.writtenTexts := by
  obtain ⟨e, r, condition, having, -, -, draws⟩ := exists_draws_of_plans h
  exact (draws.worded.holds mem (holds.isEmpty_eq_false (List.cons_ne_nil _ _))).trans holds

/-- Wherever a statement uses trusted SQL, it has it as a part, in parentheses. -/
theorem Uses.holds {f : Fragment} (h : t.Uses d p c clock f s) : f.Holds (Fragment.trusted s) t.writtenTexts := by
  cases h with
  | joined plans mem =>
    obtain ⟨e, r, condition, having, he, hr, draws⟩ := exists_draws_of_plans plans
    have written : s ∈ Join.conditionTextsOf e.joins := by
      rw [eq_visibleTo_of_effective he]
      exact (Join.conditionTextsOf_restrictList c.roles t.joins).symm ▸ mem
    obtain ⟨clause, among, written⟩ := JoinPlan.exists_clause_of_trusted (Resolver.describes hr).joins written
    rw [← draws.joins] at among
    exact holds_of_part plans (Plan.condition_mem_parts among) (written ▸ .refl _ _)
  | chosen made he hr mem writes =>
    obtain ⟨written, selects⟩ := exists_selects made
    obtain ⟨_, own, rfl⟩ := fields_of_effective he hr
    cases selects.written.symm.trans own
    obtain ⟨items, hitems, selected⟩ := selects.items
    obtain ⟨item, among, shown⟩ := Checked.exists_mem_mapM hitems mem
    obtain ⟨known, -⟩ := Resolver.mem_selectable.mp (Resolver.mem_chosenFields mem)
    have holds := (Resolver.describes hr).holds_of_selectionOf (Resolver.mem_known_of_mem_fields known) shown writes
    rw [eq_visibleTo_of_effective he, writtenTexts_visibleTo] at holds
    refine holds_of_part (.answer (.answer made List.mem_cons_self)) (Plan.expression_mem_parts ?_) holds
    rw [selected]
    exact List.mem_append_left _ among
  | part plans mem holds => exact holds_of_part plans mem holds
  | @tree statement made e r he hr scope hscope s holds =>
    obtain ⟨_, _, _, _, rows, order, he', hr', hscope', -, hrows, horder, rfl⟩ := exists_of_compileTree made
    cases he.symm.trans he'
    cases hr.symm.trans hr'
    cases hscope.symm.trans hscope'
    have filled : ¬scope.isEmpty = true := Bool.eq_false_iff.mp (holds.isEmpty_eq_false (List.cons_ne_nil _ _))
    rw [if_neg filled]
    have found : rows.BuiltFrom t.writtenTexts := hrows.builtFrom
    exact (Fragment.Holds.after (found.add (by decide)) holds).add horder.quiet

/-- Every statement is put together from values, quiet texts and what the description has written into SQL, and wherever
it uses trusted SQL it has it in parentheses. In whatever way it is so put together, its values are those of the
segments in their order, and a dialect that does not number placeholders gets the texts as they are. One that does gets
them as they are and the values numbered from 1 just if the placeholders that are read stand where the values were put.
If all that is written closes its quotes, it gets each text with its own placeholders numbered too, and so all texts as
they are just if none of them has a placeholder. -/
theorem trusted_verbatim_iff :
    (∀ f, t.Produces d p c clock f →
      ∃ segments, f.MadeOf segments ∧ ∀ segment ∈ segments, segment.IsAmong t.writtenTexts)
    ∧ (∀ f s, t.Uses d p c clock f s → ∃ before after : List Segment,
      (∀ segment ∈ before ++ after, segment.IsAmong t.writtenTexts)
        ∧ f.MadeOf (before ++ .text (Fragment.trusted s).sql :: after))
    ∧ ∀ (f : Fragment) segments, f.MadeOf segments → (∀ segment ∈ segments, segment.IsAmong t.writtenTexts) →
      f.params = segments.filterMap Segment.value?
        ∧ (∀ d', d' ≠ .postgresql → f.render d' = segments.flatMap Segment.sql)
        ∧ (f.render .postgresql = Segment.numberedFrom 0 segments ↔ positions f.sql = Segment.placesFrom 0 segments)
        ∧ ((∀ text ∈ t.writtenTexts, Closed text) →
          f.render .postgresql = Segment.renderedFrom 0 segments
            ∧ (f.render .postgresql = Segment.numberedFrom 0 segments
              ↔ ∀ sql, .text sql ∈ segments → positions sql = [])) := by
  refine ⟨fun f => builtFrom_of_produces, fun f s uses => uses.holds.exists_segments, fun f segments made among => ?_⟩
  obtain ⟨sql, params⟩ := made.text_and_values
  refine ⟨params, fun d' other => ?_, made.rendered_iff, fun written => made.rendered_of_closed fun text mem => ?_⟩
  · rw [← sql]
    cases d' with
    | postgresql => exact absurd rfl other
    | _ => rfl
  · rcases among _ mem with quiet | mem
    · exact quiet.closed
    · exact written text mem

/-- Parcels with their tags, of which one is asked for by an operator that is a question mark. -/
def parcels : Table where
  name := "parcels"
  base := "parcels"
  columns := [{ name := "id", type := .number },
    { name := "vip", computed := true, expression := some ⟨"tags ? 'vip'"⟩ }]
  joins := [.mk "depots" [] .left (.sql ⟨"depots.id = depot_id AND depots.kind <> '?'"⟩) [] []]

/-- The parcel of a number. -/
def parcel : Params := { filters := [("id", { value := .int 5 })] }

/-- The operator is taken for a placeholder, and the number of the parcel for the second value. -/
theorem trusted_verbatim_iff_parcels :
    ∃ compiled segments, parcels.compile .postgresql parcel {} ⟨0⟩ = .ok compiled
      ∧ compiled.data.toSql.MadeOf segments ∧ compiled.data.toSql.render .postgresql = Segment.renderedFrom 0 segments
      ∧ compiled.data.toSql.render .postgresql ≠ Segment.numberedFrom 0 segments
      ∧ compiled.data.toSql.render .postgresql = Bytes.ofString
          "SELECT \"parcels\".\"id\" AS \"id\", (tags $1 'vip') AS \"vip\" FROM \"parcels\""
        ++ " LEFT JOIN \"depots\" ON (depots.id = depot_id AND depots.kind <> '?')"
        ++ " WHERE \"parcels\".\"id\" = $2 LIMIT 10" := by
  obtain ⟨compiled, made⟩ : ∃ compiled, parcels.compile .postgresql parcel {} ⟨0⟩ = .ok compiled := ⟨_, rfl⟩
  have valid : parcels.validate none = .ok () := rfl
  have trusted : ∀ s ∈ parcels.trustedTexts, Closed s.sql := by decide
  obtain ⟨built, -, rendered⟩ := trusted_verbatim_iff (t := parcels) (d := .postgresql) (p := parcel) (c := {})
  obtain ⟨segments, put, among⟩ := built _ (.answer (.answer made List.mem_cons_self))
  obtain ⟨params, -, verbatim, closed⟩ := rendered _ segments put among
  refine ⟨compiled, segments, made, put, (closed (closed_of_validate valid trusted)).1, fun same => ?_, ?_⟩
  · -- The text has two placeholders, but there is only one value.
    have counted := congrArg List.length (verbatim.mp same)
    rw [Segment.length_placesFrom, ← params] at counted
    cases made
    exact absurd counted (by decide +kernel)
  · cases made
    decide +kernel

end Table

end TableQuery

import TableQuery.Engine.Basic
import TableQuery.Proofs.Json.Members
import TableQuery.Proofs.Statement.Selection

/-!
# What a response discloses

The rows of a response and the token of its next page are made from the rows that the data statement gives, and
these from the values of the selected expressions. Each of them reads a field that the caller may be shown. So
two databases which agree on these fields cannot be told apart by the rows and the token of a response, whatever
else they hold.

A description without anything to show selects whole rows of the database. Its response has no fields and a page of
it no boundary, so only the number of rows is disclosed.

## What is proved

`Engine.discloses_shown`, from `Engine.produce_eq_ok`: how a response is made when every step succeeds.
-/

namespace TableQuery

/-! ## Runs that succeed -/

namespace Engine

variable {σ α β : Type} {e : Engine σ} {s s' : State σ}

/-- A run succeeds with a value and leaves a state. -/
def Yields (x : Run σ α) (s : State σ) (a : α) (s' : State σ) : Prop := x.run s = (.ok a, s')

theorem run_bind (x : Run σ α) (f : α → Run σ β) (s : State σ) :
    (x >>= f).run s = match x.run s with
      | (.ok a, next) => (f a).run next
      | (.error failure, next) => (.error failure, next) := by
  unfold ExceptT.run
  simp only [bind, ExceptT.bind, ExceptT.mk, StateT.bind, ExceptT.bindCont]
  cases x s with
  | mk outcome next => cases outcome <;> rfl

/-- A run of two steps that succeeds: the second goes on from the state that the first leaves. -/
theorem yields_bind {x : Run σ α} {f : α → Run σ β} {b : β} (h : Yields (x >>= f) s b s') :
    ∃ a next, Yields x s a next ∧ Yields (f a) next b s' := by
  unfold Yields at h ⊢
  rw [run_bind] at h
  cases step : x.run s with
  | mk outcome next =>
    rw [step] at h
    cases outcome with
    | error failure => cases h
    | ok a => exact ⟨a, next, rfl, h⟩

theorem yields_done {result : Outcome α} {a : α} (h : Yields (done result) s a s') : result = .ok a ∧ s' = s := by
  cases h
  exact ⟨rfl, rfl⟩

theorem yields_checked {result : Checked α} {a : α} (h : Yields (checked result) s a s') :
    result = .ok a ∧ s' = s := by
  obtain ⟨made, rfl⟩ := yields_done h
  refine ⟨?_, rfl⟩
  cases result with
  | error fault => cases made
  | ok b =>
    cases made
    rfl

/-- A statement that succeeds gives the rows that the executor gives for it. -/
theorem yields_run {statement : Fragment} {rows : List Json} (h : Yields (e.run statement) s rows s') :
    (e.executor.execute statement s.database).1 = .ok rows := by
  unfold Yields run at h
  exact congrArg Prod.fst h

variable {p : Params} {c : Context} {clock : Instant} {compiled : Compiled} {response : Response}

/-! ## How a response is made -/

/-- The rows of a page, from those that its statement gives. -/
def pageRows : Paging → List Json → List Json
  | .byNumber _, rows => rows
  | .byCursor k, rows => (k.finish rows).rows

/-- The token of the page after this one, from the rows that its statement gives. -/
def nextToken : Paging → List Json → Option Bytes
  | .byNumber _, _ => none
  | .byCursor k, rows => (k.finish rows).nextCursor

/-- The token that a response says the next page has. -/
def tokenOf (response : Response) : Json := (response.pageInfo.get? "nextCursor").getD .null

theorem shape_eq_ok {t : Table} {transforms : TransformRegistry} {rows : List Json} {fields : List Bytes}
    {pageInfo : Json} {aggregations : Option Json}
    (h : t.shape transforms rows fields pageInfo aggregations = .ok response) :
    rows.mapM (t.shapeRow transforms fields) = .ok response.rows ∧ response.pageInfo = pageInfo := by
  unfold Table.shape at h
  obtain ⟨shaped, hshaped, h⟩ := Checked.bind_eq_ok.mp h
  cases h
  exact ⟨hshaped, rfl⟩

theorem token_byCursor (page : Keyset.Page) (size : Int64) :
    ((page.toMeta size).get? "nextCursor").getD .null = (page.nextCursor.map Json.str).getD .null := by
  unfold Keyset.Page.toMeta
  rw [Json.get?_record ?_ List.mem_cons_self]
  · rfl
  · simp only [List.map_cons, List.map_nil]
    decide

theorem token_byNumber (w : Window) (total : Int64) : ((w.toMeta total).get? "nextCursor").getD .null = .null := by
  unfold Window.toMeta
  split_ifs <;> rfl

/-- A response is the shape of the rows of its page, and says the token of the next one. -/
theorem produce_eq_ok (h : Yields (e.produce p c clock) s response s') :
    ∃ t compiled rows, e.table.effective c = .ok t ∧ e.explain p c clock = .ok compiled
      ∧ (e.executor.execute compiled.data.toSql s.database).1 = .ok rows
      ∧ (pageRows compiled.paging rows).mapM (t.shapeRow e.transforms compiled.outputFields) = .ok response.rows
      ∧ tokenOf response = ((nextToken compiled.paging rows).map Json.str).getD .null := by
  unfold produce at h
  obtain ⟨t, s₁, derived, h₁⟩ := yields_bind h
  obtain ⟨ht, rfl⟩ := yields_checked derived
  obtain ⟨compiled, s₂, explained, h₂⟩ := yields_bind h₁
  obtain ⟨hcompiled, rfl⟩ := yields_checked explained
  obtain ⟨rows, s₃, executed, h₃⟩ := yields_bind h₂
  obtain ⟨aggregations, s₄, -, h₄⟩ := yields_bind h₃
  refine ⟨t, compiled, rows, ht, hcompiled, yields_run executed, ?_⟩
  have shaped {pageInfo : Json} {total : State σ} {kept : List Json} {token : Option Bytes}
      (last : Yields (done (t.shape e.transforms kept compiled.outputFields pageInfo aggregations)) total response s')
      (named : (pageInfo.get? "nextCursor").getD .null = (token.map Json.str).getD .null) :
      kept.mapM (t.shapeRow e.transforms compiled.outputFields) = .ok response.rows
        ∧ tokenOf response = (token.map Json.str).getD .null := by
    obtain ⟨shaped, pageInfo⟩ := shape_eq_ok (yields_done last).1
    unfold tokenOf
    rw [pageInfo]
    exact ⟨shaped, named⟩
  cases paging : compiled.paging with
  | byCursor k =>
    rw [paging] at h₄
    exact shaped h₄ (token_byCursor _ _)
  | byNumber w =>
    rw [paging] at h₄
    dsimp only at h₄
    split_ifs at h₄
    · obtain ⟨total, s₅, -, h₅⟩ := yields_bind h₄
      exact shaped h₅ (token_byNumber w total)
    · obtain ⟨total, s₅, -, h₅⟩ := yields_bind h₄
      exact shaped h₅ (token_byNumber w total)

end Engine

/-! ## Rows that agree on what may be shown -/

namespace Plan

/-- The row that a plan's statement gives where expressions have these values. -/
def rowOf (plan : Plan) (value : Fragment → Json) : Json :=
  .record (plan.select.map fun item => (item.name, value item.expression))

/-- The rows that a plan's statement gives, from the values that expressions have in each of them. A plan that selects
nothing by name gets whole rows, of which no more is known than how many there are. -/
def Gives (plan : Plan) (values : List (Fragment → Json)) (rows : List Json) : Prop :=
  if plan.select.isEmpty then rows.length = values.length else rows = values.map plan.rowOf

end Plan

/-- Two rows agree on every field that a caller with these roles may be shown. -/
def Resolver.Agree (r : Resolver) (roles : List Bytes) (value value' : Fragment → Json) : Prop :=
  ∀ f item, r.MayShow roles f → r.Reads f item → value item.expression = value' item.expression

namespace Engine

variable {σ : Type} {e : Engine σ} {p : Params} {c : Context} {clock : Instant} {compiled : Compiled}

/-- The database of a state gives rows for a plan, in which expressions have these values. -/
def Finds (e : Engine σ) (plan : Plan) (s : State σ) (values : List (Fragment → Json)) : Prop :=
  ∃ rows, (e.executor.execute plan.toSql s.database).1 = .ok rows ∧ plan.Gives values rows

/-- Both ways of paging keep as many of the first rows, and make the token from the boundaries of the rows. -/
theorem page_congr {α : Type} {paging : Paging} {rows rows' : List Json} {f : Json → α}
    (same : rows.map f = rows'.map f)
    (bounded : rows.map (Keyset.boundaryOf paging.boundary) = rows'.map (Keyset.boundaryOf paging.boundary)) :
    (pageRows paging rows).map f = (pageRows paging rows').map f
      ∧ nextToken paging rows = nextToken paging rows' := by
  have length : rows.length = rows'.length := by simpa using congrArg List.length same
  cases paging with
  | byNumber w => exact ⟨same, rfl⟩
  | byCursor k =>
    unfold pageRows nextToken Keyset.finish
    dsimp only
    rw [length]
    split_ifs
    · exact ⟨same, rfl⟩
    · change rows.map (Keyset.boundaryOf k.order) = rows'.map (Keyset.boundaryOf k.order) at bounded
      constructor
      · simp only [List.map_take, same]
      · have kept := congrArg (fun l => (l.take k.pageSize.toInt.toNat).getLast?.map Cursor.encode) bounded
        simpa only [← List.map_take, List.getLast?_map, Option.map_map, Function.comp_def] using kept

/-- What a response and its token are made from is the same in rows that agree on what may be shown. -/
theorem shown_congr {r : Resolver} {rows rows' : List Json} {values values' : List (Fragment → Json)} (t : Table)
    (transforms : TransformRegistry) (h : e.table.Selects e.executor.dialect p c compiled r)
    (gives : compiled.data.Gives values rows) (gives' : compiled.data.Gives values' rows')
    (agree : List.Forall₂ (r.Agree c.roles) values values') :
    rows.map (t.shapeRow transforms compiled.outputFields) = rows'.map (t.shapeRow transforms compiled.outputFields)
      ∧ rows.map (Keyset.boundaryOf compiled.paging.boundary)
        = rows'.map (Keyset.boundaryOf compiled.paging.boundary) := by
  unfold Plan.Gives at gives gives'
  by_cases empty : compiled.data.select.isEmpty = true
  · rw [if_pos empty] at gives gives'
    obtain ⟨fieldless, unordered⟩ := h.of_select_eq_nil (List.isEmpty_iff.mp empty)
    have length : rows.length = rows'.length := by rw [gives, gives', agree.length_eq]
    rw [fieldless, unordered]
    -- Without fields and without a boundary, every row looks the same.
    have shape : t.shapeRow transforms [] = fun _ => .ok (.recordOf []) := rfl
    have boundary : Keyset.boundaryOf [] = fun _ => .record [] := rfl
    rw [shape, boundary]
    simp only [List.map_const', length, and_self]
  · rw [if_neg empty] at gives gives'
    have same : rows = rows' := by
      rw [gives, gives']
      clear gives gives'
      induction agree with
      | nil => rfl
      | @cons value value' _ _ head _ ih =>
        have row : compiled.data.rowOf value = compiled.data.rowOf value' := by
          unfold Plan.rowOf
          refine congrArg Json.record (List.map_congr_left fun item mem => ?_)
          obtain ⟨f, shows', reads⟩ := h.mayShow mem
          exact congrArg (Prod.mk item.name) (head f item shows' reads)
        rw [List.map_cons, List.map_cons, row, ih]
    rw [same]
    exact ⟨rfl, rfl⟩

/-- A response discloses what the caller may be shown, and nothing else of the data. Each item that the data
statement selects, boundary values included, reads a field that is not hidden and whose column the caller may see.
So if two databases agree on these fields in every row that the statement finds, their responses have the same rows
and the same token, whatever values the other columns have. -/
theorem discloses_shown (explained : e.explain p c clock = .ok compiled) :
    ∃ r, Resolver.ofTable e.table e.executor.dialect = .ok r
      ∧ (∀ item ∈ compiled.data.select, ∃ f, r.MayShow c.roles f ∧ r.Reads f item)
      ∧ ∀ {s s' t t' : State σ} {response response' : Response} {values values' : List (Fragment → Json)},
        e.Finds compiled.data s values → e.Finds compiled.data s' values' →
        List.Forall₂ (r.Agree c.roles) values values' →
        Yields (e.produce p c clock) s response t → Yields (e.produce p c clock) s' response' t' →
        response.rows = response'.rows ∧ tokenOf response = tokenOf response' := by
  obtain ⟨r, selects⟩ := Table.exists_selects explained
  refine ⟨r, selects.written, fun item mem => selects.mayShow mem, ?_⟩
  rintro s s' t t' response response' values values' ⟨rows, found, gives⟩ ⟨rows', found', gives'⟩ agree answer answer'
  obtain ⟨table, compiled₁, rows₁, derived, explained₁, found₁, shaped, token⟩ := produce_eq_ok answer
  obtain ⟨table', compiled₂, rows₂, derived', explained₂, found₂, shaped', token'⟩ := produce_eq_ok answer'
  -- Both runs compile the same request, and each database gives one answer.
  rw [explained] at explained₁ explained₂
  cases explained₁
  cases explained₂
  rw [derived] at derived'
  cases derived'
  rw [found] at found₁
  cases found₁
  rw [found'] at found₂
  cases found₂
  obtain ⟨shape, boundary⟩ := shown_congr table e.transforms selects gives gives' agree
  obtain ⟨rowsAgree, tokensAgree⟩ := page_congr shape boundary
  constructor
  · rw [Checked.mapM_eq_of_map_eq rowsAgree] at shaped
    exact Except.ok.inj (shaped.symm.trans shaped')
  · rw [token, token', tokensAgree]

/-- A table of orders, of which only finance may see the cost. -/
def orders : Table where
  name := "orders"
  base := "orders"
  columns := [{ name := "total", type := .number }, { name := "cost", type := .number, visibleTo := ["finance"] }]

/-- An engine for it, over databases that hold one order with a total of 1 and a cost. -/
def ordersEngine : Engine Json where
  table := orders
  executor := { dialect := .sqlite, execute := fun _ cost => (.ok [.record [("total", .int 1)]], cost) }
  transforms := .builtin

/-- The values in the order of a database: the total of 1, and whatever cost the database holds. -/
def orderValue (cost : Json) (expression : Fragment) : Json :=
  if expression.sql = "\"orders\".\"cost\"" then cost else .int 1

/-- A caller without roles cannot tell what an order cost. -/
theorem discloses_shown_orders :
    ∃ response response',
      Yields (ordersEngine.produce {} {} ⟨0⟩) { database := .int 5 } response { database := .int 5 }
      ∧ Yields (ordersEngine.produce {} {} ⟨0⟩) { database := .int 7 } response' { database := .int 7 }
      ∧ response.rows = response'.rows ∧ tokenOf response = tokenOf response' := by
  obtain ⟨compiled, explained⟩ : ∃ compiled, ordersEngine.explain {} {} ⟨0⟩ = .ok compiled := ⟨_, rfl⟩
  obtain ⟨r, written, -, same⟩ := discloses_shown explained
  have selected : compiled.data.select
      = [{ name := "total", expression := Fragment.text "\"orders\".\"total\"" }] := by
    cases explained
    rfl
  have finds (cost : Json) : ordersEngine.Finds compiled.data { database := cost } [orderValue cost] := by
    refine ⟨[.record [("total", .int 1)]], rfl, ?_⟩
    unfold Plan.Gives Plan.rowOf
    rw [selected]
    rfl
  have known : r.known = orders.columns.map (Field.ofColumn .sqlite ["orders", "orders"] "orders") := by
    cases written
    rfl
  have agree : r.Agree [] (orderValue (.int 5)) (orderValue (.int 7)) := by
    intro f item shows' reads
    have mem := shows'.known
    rw [known] at mem
    rcases List.mem_pair.mp mem with rfl | rfl
    · cases reads with
      | chosen made =>
        cases made
        rfl
      | boundary => rfl
    · cases shows'.visible
  have answer (cost : Json) : ∃ response, Yields (ordersEngine.produce {} {} ⟨0⟩) { database := cost } response
      { database := cost } := ⟨_, rfl⟩
  obtain ⟨response, hr⟩ := answer (.int 5)
  obtain ⟨response', hr'⟩ := answer (.int 7)
  exact ⟨response, response', hr, hr', same (finds _) (finds _) (.cons agree .nil) hr hr'⟩

end Engine

end TableQuery

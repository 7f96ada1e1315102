import TableQuery.Cache.Key
import TableQuery.Cache.Store
import TableQuery.Response.Basic
import TableQuery.Statement.Compiled

/-!
# The engine

An engine answers requests to one table: it compiles a request, has an executor run the statements, and
shapes the rows. An executor is a database of some state `σ`; a statement it refuses may still have
changed the state.

Where the table asks for it and there is a cache, a response is looked up by the key of its request
first. A fresh one is handed out, and a stale one too, while its key is marked and it is made anew; a
refresh that fails leaves the cache as it was.
-/

namespace TableQuery

/-- A database that runs statements. -/
structure Executor (σ : Type) where
  dialect : Dialect
  execute : Fragment → σ → Outcome (List Json) × σ

/-- A table with what it takes to answer requests to it. -/
structure Engine (σ : Type) where
  table : Table
  executor : Executor σ
  transforms : TransformRegistry

namespace Engine

/-- The state that requests change: the cache, if there is one, and the database. -/
structure State (σ : Type) where
  cache : Option Cache := none
  database : σ

/-- A computation that runs statements; its state stays when it fails. -/
abbrev Run (σ : Type) := ExceptT Failure (StateM (State σ))

variable {σ : Type}

/-- An engine over an executor, if there is one. -/
def ofExecutor (table : Table) (executor : Option (Executor σ)) (transforms : TransformRegistry) :
    Checked (Engine σ) :=
  match executor with
  | some executor => .ok { table, executor, transforms }
  | none =>
    .error (.config "TableEngine requires an executor" (.record [("table", .str table.name)]))

/-! ## Running statements -/

/-- A result that does not depend on the state. -/
def done {α : Type} (result : Outcome α) : Run σ α := ExceptT.mk (pure result)

/-- A checked result that does not depend on the state. -/
def checked {α : Type} (result : Checked α) : Run σ α := done (result.mapError .fault)

/-- Runs a statement. -/
def run (e : Engine σ) (statement : Fragment) : Run σ (List Json) :=
  ExceptT.mk fun state =>
    let (result, database) := e.executor.execute statement state.database
    (result, { state with database })

/-- The fault of a count without a row. -/
def countMissing (e : Engine σ) : Fault :=
  .query "Count query returned no rows" (.record [("table", .str e.table.name)])

/-- The number that an executor gives for a count: an integer, a double's integer part, or a text of
digits, held within 64 bits. -/
def countOf (value : Json) : Checked Int64 :=
  let unexpected : Fault := .query "Unexpected count value from executor" (.record [("value", value)])
  match value with
  | .str s =>
    match Numeral.integer? (s.dropWhile Ascii.isSpace) with
    | some n => .ok (Int64.ofIntClamp n)
    | none => .error unexpected
  | j =>
    match j.asInt64 with
    | .ok n => .ok n
    | .error _ => .error unexpected

/-- Runs a statement that counts rows. -/
def runCount (e : Engine σ) (plan : Plan) : Run σ Int64 := do
  let rows ← e.run plan.toSql
  match rows.head?.bind fun row => row.get? "total" with
  | some total => checked (countOf total)
  | none => checked (.error e.countMissing)

/-! ## Making responses -/

/-- The statements of a request. -/
def explain (e : Engine σ) (p : Params) (c : Context) (clock : Instant) : Checked Compiled :=
  e.table.compile e.executor.dialect p c clock

/-- The aggregates of a response: what the first row holds beside the number of rows. -/
def aggregatesOf (rows : List Json) : Json :=
  .record (((rows.head?.map Json.items).getD []).filter fun (name, _) =>
    name != Resolver.totalCountName)

/-- Runs the statement of the aggregates, if there is one. -/
def runAggregations (e : Engine σ) : Option Plan → Run σ (Option Json)
  | none => pure none
  | some plan => do return some (aggregatesOf (← e.run plan.toSql))

/-- Runs a request and shapes its response. -/
def produce (e : Engine σ) (p : Params) (c : Context) (clock : Instant) : Run σ Response := do
  let table ← checked (e.table.effective c)
  let compiled ← checked (e.explain p c clock)
  let rows ← e.run compiled.data.toSql
  let aggregations ← e.runAggregations compiled.aggregations
  match compiled.paging with
  | .byCursor keyset =>
    let page := keyset.finish rows
    done (table.shape e.transforms page.rows compiled.outputFields (page.toMeta keyset.pageSize)
      aggregations)
  | .byNumber window =>
    let total ← if window.enabled then e.runCount compiled.count else pure (Int64.ofNat rows.length)
    done (table.shape e.transforms rows compiled.outputFields (window.toMeta total) aggregations)

/-- Runs a grouped request and shapes its response. -/
def produceGrouped (e : Engine σ) (p : Params) (c : Context) (clock : Instant) : Run σ Response := do
  let table ← checked (e.table.effective c)
  let plan ← checked (e.table.compileGrouped e.executor.dialect p c clock)
  let fields := (plan.select.map SelectItem.name).filter fun name => name != Resolver.totalCountName
  let rows ← e.run plan.toSql
  done (table.shape e.transforms rows fields (.record [("total", .int rows.length)]) none)

/-! ## Trees -/

/-- The columns that a walk shows under their own names. -/
def walkColumns (t : Table) : List Column :=
  t.columns.filter fun c => !c.hidden && !c.computed && c.expression.isNone

/-- The names that the walk itself adds to a row. -/
def walkNames (w : TreeWalk) : List Bytes :=
  w.depthName :: if w.pathName.isEmpty then [] else [w.pathName]

/-- A row of a walk, from database columns to output fields. -/
def renameWalkRow (t : Table) (w : TreeWalk) (row : Json) : Json :=
  let value (name : Bytes) : Json := (row.get? name).getD .null
  .record
    ((walkColumns t).map (fun c => (c.name, value c.source))
      ++ (walkNames w).map fun name => (name, value name))

/-- The rows of a walk as a response. -/
def shapeWalk (e : Engine σ) (t : Table) (w : TreeWalk) (rows : List Json) : Outcome Response :=
  t.shape e.transforms (rows.map (renameWalkRow t w))
    ((walkColumns t).map Column.name ++ walkNames w)
    (.record [("total", .int rows.length), ("maxDepth", .int w.maxDepth.toInt)]) none

/-- Walks the tree of the table and shapes the response. -/
def queryTree (e : Engine σ) (p : Params) (c : Context) : Run σ Response := do
  let table ← checked (e.table.effective c)
  let statement ← checked (e.table.compileTree e.executor.dialect p c)
  let rows ← e.run statement
  match table.walk with
  | some walk => done (e.shapeWalk table walk rows)
  | none => pure {}

/-! ## Caching -/

/-- What kind of request a cached response answers. -/
inductive RequestKind where
  | query
  | grouped
deriving Repr, DecidableEq

/-- The name of a kind of request in a key. -/
def RequestKind.name : RequestKind → Bytes
  | query => "query"
  | grouped => "grouped"

/-- The key of a request's response. -/
def keyOf (e : Engine σ) (kind : RequestKind) (p : Params) (c : Context) : Bytes :=
  Cache.keyOf (e.table.name ++ Ascii.colon :: kind.name) p.toJson c.toJson

/-- Changes the cache. -/
def onCache (change : Cache → Cache) : Run σ Unit :=
  modify fun state => { state with cache := state.cache.map change }

/-- Puts a response into the cache for the times that the table gives. -/
def store (e : Engine σ) (key : Bytes) (response : Response) (now : Instant) : Run σ Unit :=
  onCache fun cache =>
    cache.put key response.toJson (Duration.ofSeconds e.table.cache.ttl)
      (Duration.ofSeconds e.table.cache.staleWhileRevalidate) now

/-- Makes a marked response anew; a failure changes nothing in the cache. The mark is taken off at the
end. -/
def refresh (e : Engine σ) (key : Bytes) (make : Run σ Response) (now : Instant) : Run σ Unit := do
  tryCatch (do e.store key (← make) now) fun _ => pure ()
  onCache fun cache => cache.unmark key

/-- Makes a stale response anew, unless someone does already. -/
def revalidate (e : Engine σ) (key : Bytes) (make : Run σ Response) (now : Instant) : Run σ Unit := do
  let state ← get
  match state.cache with
  | none => pure ()
  | some cache =>
    let (owned, marked) := cache.mark key
    onCache fun _ => marked
    if owned then e.refresh key make now

/-- A stored response. -/
def ofStored (value : Option Json) : Run σ Response :=
  done do
    let response ← Response.ofJson (value.getD .null)
    return response

/-- Answers from the cache where the table is cached, and makes the response otherwise. `now` is the time
of the cache. -/
def cached (e : Engine σ) (key : Bytes) (make : Run σ Response) (now : Instant) : Run σ Response := do
  let state ← get
  match if e.table.cache.enabled then state.cache else none with
  | none => make
  | some cache =>
    let (found, value, looked) := cache.get key now
    onCache fun _ => looked
    match found with
    | .fresh => ofStored value
    | .stale =>
      e.revalidate key make now
      ofStored value
    | .miss =>
      let response ← make
      e.store key response now
      return response

/-! ## Requests -/

/-- Answers a request. `clock` is the time for requests without one, `now` the time of the cache. -/
def query (e : Engine σ) (p : Params) (c : Context) (clock now : Instant) : Run σ Response :=
  e.cached (e.keyOf .query p c) (e.produce p c clock) now

/-- Answers a grouped request. -/
def queryGrouped (e : Engine σ) (p : Params) (c : Context) (clock now : Instant) : Run σ Response :=
  e.cached (e.keyOf .grouped p c) (e.produceGrouped p c clock) now

/-- Counts the rows of a request. -/
def count (e : Engine σ) (p : Params) (c : Context) (clock : Instant) : Run σ Int64 := do
  e.runCount (← checked (e.table.compileCount e.executor.dialect p c clock))

end Engine

end TableQuery

import Mathlib.Data.Set.Basic
import TableQuery.Proofs.Cache.Key
import TableQuery.Proofs.Cache.Store
import TableQuery.Proofs.Engine.Repeatable
import TableQuery.Proofs.Engine.Session
import TableQuery.Proofs.Json.Read

/-!
# A cache that no caller can tell from none

A response is put under the key of its call. Where keys tell calls apart as far as their responses differ, every value
of the cache is the response to each call that has its key, whichever thread put it there and when. One step of a thread
keeps this, so a whole session does, and a call is answered as it would be without a cache.

Keys do so where filters stand in the order of their names, as those of an object do. Filters of an array are named by
their positions, and position 10 comes before position 2 in that order, so an array of eleven filters and an object with
the same filters have one key and different statements.

## What is proved

`Phase.Right.advance`: what one step keeps.
`Session.answered_as_without_cache`: what callers get in a session.
-/

namespace TableQuery

open Engine

variable {σ : Type}

/-! ## Stored responses -/

theorem Response.tells (r : Response) :
    r.toJson.Tells [("data", some (.arr r.rows)), ("meta", some r.pageInfo), ("aggregations", r.aggregations)] := by
  refine Json.tells_recordOf ?_ ?_
  · unfold Json.present
    rw [List.flatMap_def, Json.member?_eq, Option.map_id]
    rfl
  · simp only [List.map_cons, List.map_nil]
    decide

theorem Response.ofJson_toJson (r : Response) : Response.ofJson r.toJson = .ok r := by
  have told := r.tells
  refine Checked.bind_of_ok (told.getOr "data" _ rfl (.arr [])) (Checked.bind_of_ok rfl ?_)
  refine Checked.bind_of_ok (told.getOr "meta" _ rfl (.obj [])) ?_
  rw [told.get? "aggregations" _ rfl]
  rfl

theorem Engine.run_ofStored_toJson (r : Response) (s : State σ) :
    (ofStored (some r.toJson) : Run σ Response).run s = (.ok r, s) := by
  unfold ofStored
  rw [Option.getD_some, Response.ofJson_toJson]
  rfl

/-! ## What calls give -/

namespace Call

/-- The response to a call, or its failure, is this one in every state and at every time. -/
def Gives (c : Call σ) (result : Outcome Response) : Prop := ∀ clock, Engine.Gives (c.make clock) result

/-- Without a cache the call is answered with what it gives. -/
theorem Gives.answer {c : Call σ} {result : Outcome Response} (gives : c.Gives result) (clock now : Instant)
    (database : σ) : ((c.answer clock now).run { database }).1 = result := by
  have unshared : (if c.engine.table.cache.enabled then (none : Option Cache) else none) = none := ite_self _
  rw [answer_eq, run_cached, unshared]
  exact (gives clock _).1

theorem make_tidy (c : Call σ) (clock : Instant) :
    make { c with context := c.context.tidy } clock = c.make clock := by
  obtain ⟨engine, kind, params, context⟩ := c
  cases kind with
  | query => exact produce_tidy params context clock
  | grouped => exact produceGrouped_tidy params context clock

end Call

/-- The text whose digest is the call's key. -/
def Call.text (c : Call σ) : Bytes := c.engine.keyText c.kind c.params c.context

/-- What the engines that share a cache, and the calls to them, are to be like: executors are pure, different engines
have tables of different names, no two texts of keys have one digest, and contexts have a time. -/
structure Admissible (calls : Set (Call σ)) : Prop where
  pure : ∀ c ∈ calls, c.engine.executor.IsPure
  named : ∀ c ∈ calls, ∀ d ∈ calls, c.engine.table.name = d.engine.table.name → c.engine = d.engine
  noCollision : ∀ c ∈ calls, ∀ d ∈ calls, Sha256.digest c.text = Sha256.digest d.text → c.text = d.text
  timed : ∀ c ∈ calls, c.context.Timed

/-- Calls whose filters stand in the order of their names: keys tell them apart. -/
structure Told (calls : Set (Call σ)) : Prop extends Admissible calls where
  ordered : ∀ c ∈ calls, Members.Sorted c.params.filters

theorem Admissible.exists_gives {calls : Set (Call σ)} {c : Call σ} (h : Admissible calls) (mem : c ∈ calls) :
    ∃ result, c.Gives result := by
  have timed := h.timed c mem
  have repeatable : Repeatable (c.make ⟨0⟩) := by
    unfold Call.make
    split
    · exact repeatable_produce (h.pure c mem) _ _ _
    · exact repeatable_produceGrouped (h.pure c mem) _ _ _
  obtain ⟨result, gives⟩ := repeatable
  refine ⟨result, fun clock => ?_⟩
  have same : c.make clock = c.make ⟨0⟩ := by
    unfold Call.make
    split
    · exact produce_of_timed timed _ _ _
    · exact produceGrouped_of_timed timed _ _ _
  rw [same]
  exact gives

/-- Calls with one key give the same. -/
theorem Told.gives_congr {calls : Set (Call σ)} {c d : Call σ} (h : Told calls) (hc : c ∈ calls) (hd : d ∈ calls)
    (same : c.key = d.key) {result : Outcome Response} (gives : c.Gives result) : d.Gives result := by
  obtain ⟨tables, kinds, params, contexts⟩ := keyOf_inj (h.noCollision c hc d hd) (h.ordered c hc) (h.ordered d hd)
    (h.timed c hc) (h.timed d hd) same
  have engines : c.engine = d.engine := h.named c hc d hd tables
  have tidied : { c with context := c.context.tidy } = { d with context := d.context.tidy } := by
    cases c
    cases d
    cases engines
    cases kinds
    cases params
    rw [contexts]
  intro clock
  rw [← Call.make_tidy d, ← tidied, Call.make_tidy c]
  exact gives clock

/-! ## One step -/

/-- A value under a key is the response to each of the calls which have that key. -/
def Answers (calls : Set (Call σ)) (key : Bytes) (value : Json) : Prop :=
  ∀ c ∈ calls, c.key = key → ∃ response : Response, value = response.toJson ∧ c.Gives (.ok response)

/-- What a thread carries with it is what its call gives. -/
def Phase.Right (c : Call σ) : Phase → Prop
  | made response | remade response => c.Gives (.ok response)
  | stale value => ∃ response : Response, value = some response.toJson ∧ c.Gives (.ok response)
  | answered result => c.Gives result
  | asked | missed | refreshing | releasing | released => True

/-- Something holds of every value that a state has in its cache. -/
def Engine.State.Holds (P : Bytes → Json → Prop) (s : State σ) : Prop := ∀ cache, s.cache = some cache → cache.Holds P

namespace Engine.State.Holds

variable {P : Bytes → Json → Prop} {s s' : State σ}

theorem of_cache (holds : s.Holds P) (same : s'.cache = s.cache) : s'.Holds P :=
  fun cache held => holds cache (same ▸ held)

theorem change (holds : s.Holds P) {change : Cache → Cache} (keep : ∀ cache, cache.Holds P → (change cache).Holds P)
    (database : σ) : State.Holds P { cache := s.cache.map change, database } := by
  intro cache held
  obtain ⟨before, shared, rfl⟩ := Option.map_eq_some_iff.mp held
  exact keep before (holds before shared)

end Engine.State.Holds

section Step

variable {calls : Set (Call σ)} {c : Call σ} {s : State σ}

/-- A response that a call gives can be put under its key. -/
theorem Told.holds_store (h : Told calls) (mem : c ∈ calls) (holds : s.Holds (Answers calls))
    {response : Response} (gives : c.Gives (.ok response)) (now : Instant) :
    ((c.engine.store c.key response now).run s).2.Holds (Answers calls) := by
  have answers : Answers calls c.key response.toJson := fun d asked same =>
    ⟨response, rfl, h.gives_congr mem asked same.symm gives⟩
  exact holds.change (fun cache holds => holds.put answers _ _ now) s.database

/-- A step keeps what a thread carries right, starts right refreshes, and puts right responses into the cache. -/
theorem Phase.Right.advance {phase : Phase} (right : phase.Right c) (h : Told calls) (mem : c ∈ calls)
    (holds : s.Holds (Answers calls)) (clock now : Instant) :
    (phase.advance c clock now s).phase.Right c ∧ (∀ other ∈ (phase.advance c clock now s).started, other.Right c)
      ∧ (phase.advance c clock now s).state.Holds (Answers calls) := by
  have unstarted : ∀ other ∈ ([] : List Phase), other.Right c := nofun
  obtain ⟨result, gives⟩ := h.exists_gives mem
  have ran {outcome : Outcome Response} {next : State σ} (made : (c.make clock).run s = (outcome, next)) :
      c.Gives outcome ∧ next.Holds (Answers calls) := by
    obtain ⟨same, kept⟩ := gives clock s
    rw [made] at same kept
    cases same
    exact ⟨gives, holds.of_cache kept⟩
  have hit {cache : Cache} (shared : s.cache = some cache) (found : (cache.get c.key now).1 ≠ .miss) :
      ∃ response : Response, (cache.get c.key now).2.1 = some response.toJson ∧ c.Gives (.ok response) := by
    obtain ⟨value, found, answers⟩ := (holds cache shared).found found
    obtain ⟨response, rfl, gives⟩ := answers c mem rfl
    exact ⟨response, found, gives⟩
  have looked {cache : Cache} (shared : s.cache = some cache) :
      State.Holds (Answers calls) { s with cache := some (cache.get c.key now).2.2 } := by
    rintro _ ⟨⟩
    exact (holds cache shared).get c.key now
  have marked {cache : Cache} (shared : s.cache = some cache) :
      State.Holds (Answers calls) { s with cache := some (cache.mark c.key).2 } := by
    rintro _ ⟨⟩
    exact (holds cache shared).mark c.key
  have read {value : Option Json} (right : (stale value).Right c) : c.Gives ((ofStored value).run s).1 := by
    obtain ⟨response, rfl, gives⟩ := right
    rw [run_ofStored_toJson]
    exact gives
  have advances := advances_advance c clock now s phase
  generalize phase.advance c clock now s = next at advances ⊢
  cases advances with
  | answer result next made => exact ⟨(ran made).1, unstarted, (ran made).2⟩
  | fresh cache shared found => exact ⟨read (hit shared (by rw [found]; nofun)), unstarted, looked shared⟩
  | stale cache shared found => exact ⟨hit shared (by rw [found]; nofun), unstarted, looked shared⟩
  | miss cache shared found => exact ⟨trivial, unstarted, looked shared⟩
  | make response next made => exact ⟨(ran made).1, unstarted, (ran made).2⟩
  | fail failure next failed => exact ⟨(ran failed).1, unstarted, (ran failed).2⟩
  | store response => exact ⟨right, unstarted, h.holds_store mem holds right now⟩
  | alone value unshared => exact ⟨read right, unstarted, holds⟩
  | mark value cache shared free => exact ⟨read right, List.forall_mem_singleton.mpr trivial, marked shared⟩
  | busy value cache shared taken => exact ⟨read right, unstarted, marked shared⟩
  | remake response next made => exact ⟨(ran made).1, unstarted, (ran made).2⟩
  | giveUp failure next failed => exact ⟨trivial, unstarted, (ran failed).2⟩
  | restore response => exact ⟨trivial, unstarted, h.holds_store mem holds right now⟩
  | release => exact ⟨trivial, unstarted, holds.change (fun cache holds => holds.unmark c.key) s.database⟩
  | idle result => exact ⟨right, unstarted, holds⟩
  | finished => exact ⟨trivial, unstarted, holds⟩

end Step

/-! ## Whole sessions -/

/-- All threads are of the calls and carry what these give, and the cache holds only that. -/
structure Session.Right (calls : Set (Call σ)) (s : Session σ) : Prop where
  asked : ∀ thread ∈ s.threads, thread.1 ∈ calls
  right : ∀ thread ∈ s.threads, thread.2.Right thread.1
  holds : s.state.Holds (Answers calls)

/-- An event asks none but these calls. -/
def Event.Within (calls : Set (Call σ)) : Event σ → Prop
  | ask c => c ∈ calls
  | go .. | invalidate _ | clear => True

/-- Whether an event is a step of a thread. -/
def Event.moves (i : Nat) : Event σ → Bool
  | go j _ _ => j == i
  | ask _ | invalidate _ | clear => false

namespace Session

variable {calls : Set (Call σ)} {s : Session σ}

theorem right_start (capacity : Nat) (database : σ) : (start capacity database).Right calls where
  asked := List.forall_mem_nil _
  right := List.forall_mem_nil _
  holds := by
    rintro _ ⟨⟩
    exact Cache.Holds.ofCapacity capacity

theorem Right.step (right : s.Right calls) (h : Told calls) {event : Event σ} (within : event.Within calls) :
    (s.step event).Right calls := by
  obtain ⟨asked, carried, holds⟩ := right
  cases event with
  | ask c =>
    refine ⟨List.forall_mem_append.mpr ⟨asked, ?_⟩, List.forall_mem_append.mpr ⟨carried, ?_⟩, holds⟩
    · exact List.forall_mem_singleton.mpr within
    · exact List.forall_mem_singleton.mpr trivial
  | invalidate key => exact ⟨asked, carried, holds.change (fun cache holds => holds.invalidate key) s.state.database⟩
  | clear => exact ⟨asked, carried, holds.change (fun cache _ => .clear cache) s.state.database⟩
  | go i clock now =>
    cases found : s.threads[i]? with
    | none =>
      rw [Session.step, found]
      exact ⟨asked, carried, holds⟩
    | some thread =>
      obtain ⟨c, phase⟩ := thread
      have mem := List.mem_of_getElem? found
      obtain ⟨next, started, state⟩ := (carried _ mem).advance h (asked _ mem) holds clock now
      rw [Session.step, found]
      refine ⟨fun thread mem' => ?_, fun thread mem' => ?_, state⟩
      · rcases List.mem_append.mp mem' with mem' | mem'
        · rcases List.mem_or_eq_of_mem_set mem' with mem' | rfl
          · exact asked thread mem'
          · exact asked (c, phase) mem
        · obtain ⟨other, -, rfl⟩ := List.mem_map.mp mem'
          exact asked (c, phase) mem
      · rcases List.mem_append.mp mem' with mem' | mem'
        · rcases List.mem_or_eq_of_mem_set mem' with mem' | rfl
          · exact carried thread mem'
          · exact next
        · obtain ⟨other, begun, rfl⟩ := List.mem_map.mp mem'
          exact started other begun

theorem Right.run (right : s.Right calls) (h : Told calls) {events : List (Event σ)}
    (within : ∀ event ∈ events, event.Within calls) : (s.run events).Right calls := by
  induction events generalizing s with
  | nil => exact right
  | cons event events ih =>
    rw [List.forall_mem_cons] at within
    exact ih (right.step h within.1) within.2

end Session

/-! ## Answers in time -/

/-- How many steps a call's thread takes at most until the call is answered; none for a refresh. -/
def Phase.stepsLeft? : Phase → Option Nat
  | asked => some 3
  | missed => some 2
  | made _ | stale _ => some 1
  | answered _ => some 0
  | refreshing | remade _ | releasing | released => none

theorem Phase.stepsLeft?_advance {phase : Phase} {n : Nat} (left : phase.stepsLeft? = some n) (c : Call σ)
    (clock now : Instant) (s : State σ) :
    ∃ m, (phase.advance c clock now s).phase.stepsLeft? = some m ∧ m ≤ n - 1 := by
  have advances := advances_advance c clock now s phase
  generalize phase.advance c clock now s = next at advances ⊢
  cases advances <;> cases left
  all_goals exact ⟨_, rfl, by decide⟩

namespace Session

variable {calls : Set (Call σ)} {s : Session σ} {i n : Nat} {c : Call σ}

/-- A thread of a call that is answered after at most so many steps of it. -/
def Waits (s : Session σ) (i : Nat) (c : Call σ) (n : Nat) : Prop :=
  ∃ phase m, s.threads[i]? = some (c, phase) ∧ phase.stepsLeft? = some m ∧ m ≤ n

theorem Waits.step (waits : s.Waits i c n) (event : Event σ) :
    (s.step event).Waits i c (if event.moves i then n - 1 else n) := by
  obtain ⟨phase, m, thread, left, most⟩ := waits
  cases event with
  | ask d => exact ⟨phase, m, thread_step_of_ne thread nofun, left, most⟩
  | invalidate key => exact ⟨phase, m, thread_step_of_ne thread nofun, left, most⟩
  | clear => exact ⟨phase, m, thread_step_of_ne thread nofun, left, most⟩
  | go j clock now =>
    rw [Event.moves]
    by_cases same : j = i
    · subst same
      obtain ⟨k, left, less⟩ := Phase.stepsLeft?_advance left c clock now s.state
      rw [if_pos (beq_self_eq_true _)]
      exact ⟨_, k, thread_step_go thread clock now, left, by omega⟩
    · rw [if_neg (by simpa using same)]
      refine ⟨phase, m, thread_step_of_ne thread ?_, left, most⟩
      rintro _ _ ⟨⟩
      exact same rfl

theorem Waits.run (waits : s.Waits i c n) (events : List (Event σ)) :
    (s.run events).Waits i c (n - events.countP (Event.moves i)) := by
  induction events generalizing s n with
  | nil => exact waits
  | cons event events ih =>
    have later := ih (waits.step event)
    rw [List.countP_cons]
    split_ifs at later ⊢
    · rwa [Nat.sub_sub, Nat.add_comm] at later
    · exact later

theorem Waits.answered (waits : s.Waits i c 0) : ∃ result, s.threads[i]? = some (c, .answered result) := by
  obtain ⟨phase, m, thread, left, most⟩ := waits
  cases phase <;> cases left
  case answered result => exact ⟨result, thread⟩
  all_goals cases most

/-! ## The law -/

/-- A call of a session is answered after three steps of its thread, whatever happens before and between them, and the
answer is what the engine gives without a cache. -/
theorem answered_as_without_cache (h : Admissible calls) (ordered : ∀ c ∈ calls, Members.Sorted c.params.filters)
    (capacity : Nat) (database : σ) (before after : List (Event σ)) (c : Call σ)
    (within : ∀ event ∈ before ++ .ask c :: after, event.Within calls) (clock now : Instant) (database' : σ) :
    let i := ((start capacity database).run before).threads.length
    let last := (start capacity database).run (before ++ .ask c :: after)
    let alone := ((c.answer clock now).run { database := database' }).1
    (3 ≤ after.countP (Event.moves i) → last.threads[i]? = some (c, .answered alone))
      ∧ ∀ result, last.threads[i]? = some (c, .answered result) → result = alone := by
  intro i last alone
  have right : last.Right calls := (right_start capacity database).run ⟨h, ordered⟩ within
  have own (result : Outcome Response) (answered : last.threads[i]? = some (c, .answered result)) : result = alone :=
    (Call.Gives.answer (right.right _ (List.mem_of_getElem? answered)) clock now database').symm
  refine ⟨fun enough => ?_, own⟩
  have asked : (((start capacity database).run before).step (.ask c)).Waits i c 3 :=
    ⟨.asked, 3, by
      rw [Session.step, List.getElem?_append_right (Nat.le_refl _), Nat.sub_self]
      rfl, rfl, Nat.le_refl _⟩
  have waits := asked.run after
  rw [Nat.sub_eq_zero_of_le enough] at waits
  have came : last = (((start capacity database).run before).step (.ask c)).run after :=
    run_append (start capacity database) before (.ask c :: after)
  rw [← came] at waits
  obtain ⟨result, answered⟩ := waits.answered
  rw [answered, own result answered]

end Session

/-! ## Filters of an array -/

/-- A response that was made and put is handed out to every call with its key while it is fresh. -/
theorem Call.answer_after_miss {c d : Call σ} (same : c.key = d.key) (cached : c.engine.table.cache.enabled = true)
    (cached' : d.engine.table.cache.enabled = true) {response : Response} (gives : c.Gives (.ok response))
    (capacity : Nat) (database : σ) (clock : Instant) {now : Instant}
    (fresh : now.nanoseconds < (now.after (.ofSeconds c.engine.table.cache.ttl)).nanoseconds) :
    ((d.answer clock now).run ((c.answer clock now).run (Session.start capacity database).state).2).1
      = .ok response := by
  have stored : ∃ cache : Cache, ((c.answer clock now).run (Session.start capacity database).state).2.cache
      = some (cache.put c.key response.toJson (.ofSeconds c.engine.table.cache.ttl)
        (.ofSeconds c.engine.table.cache.staleWhileRevalidate) now) := by
    rw [answer_eq, run_cached, if_pos cached, Session.start]
    dsimp only
    have missed : (Cache.ofCapacity capacity).get c.key now
        = (.miss, none, { Cache.ofCapacity capacity with counters := { misses := 1 } }) := rfl
    rw [missed]
    dsimp only
    obtain ⟨made, kept⟩ := gives clock
      { cache := some { Cache.ofCapacity capacity with counters := { misses := 1 } }, database }
    cases step : (c.make clock).run
        { cache := some { Cache.ofCapacity capacity with counters := { misses := 1 } }, database } with
    | mk outcome next =>
      rw [step] at made kept
      cases made
      exact ⟨_, congrArg (Option.map _) kept⟩
  obtain ⟨cache, stored⟩ := stored
  obtain ⟨found, value⟩ := cache.get_put c.key response.toJson (.ofSeconds c.engine.table.cache.staleWhileRevalidate)
    now fresh
  rw [answer_eq, run_cached, if_pos cached', stored, ← same]
  dsimp only
  rw [found, value]
  dsimp only
  rw [run_ofStored_toJson]

/-- A table whose columns have positions for names. -/
def numbered : Table where
  name := "numbered"
  base := "numbered"
  columns := [{ name := "2" }, { name := "10" }]
  pagination := { enabled := false }
  cache := { enabled := true, staleWhileRevalidate := 30 }

/-- An executor that finds a row where the first bound value is a certain one. -/
def findsFirst : Executor Unit where
  dialect := .sqlite
  execute statement _ := (.ok (match statement.params with
    | .str [0x78] :: _ => [.obj []]
    | _ => []), ())

/-- A request at the start of 1970. -/
def requestOf (params : Params) : Call Unit where
  engine := { table := numbered, executor := findsFirst, transforms := .builtin }
  kind := .query
  params := params
  context := { now := some (.ofMilliseconds 0) }

/-- Eleven filters, of which those in places 2 and 10 name columns. -/
def eleven : Json :=
  .arr [.int 0, .int 0, .str "x", .int 0, .int 0, .int 0, .int 0, .int 0, .int 0, .int 0, .str "y"]

/-- Filters for values by name. -/
def equalTo (values : List (Bytes × Json)) : Params :=
  { filters := values.map fun (name, value) => (name, { value }) }

/-- The filters as they are read from an array. -/
def ofArray : Params := equalTo eleven.items

/-- The filters as they are read from an object with the same members. -/
def ofObject : Params := equalTo (Members.ofList eleven.items)

theorem toJson_ofArray : ofArray.toJson = ofObject.toJson := rfl

theorem admissible_requests (params : Set Params) (same : ∀ p ∈ params, ∀ q ∈ params, p.toJson = q.toJson) :
    Admissible (requestOf '' params) where
  pure := by
    rintro _ ⟨p, -, rfl⟩
    exact ⟨_, fun _ _ => rfl⟩
  named := by
    rintro _ ⟨p, -, rfl⟩ _ ⟨q, -, rfl⟩ -
    rfl
  noCollision := by
    rintro _ ⟨p, hp, rfl⟩ _ ⟨q, hq, rfl⟩ -
    unfold Call.text requestOf keyText
    rw [same p hp q hq]
  timed := by
    rintro _ ⟨p, -, rfl⟩
    exact ⟨0, rfl, by decide, by decide⟩

/-- How many rows a response has. -/
def rowsOf (result : Outcome Response) : Option Nat := result.toOption.map fun response => response.rows.length

theorem rowsOf_ofArray : rowsOf (((requestOf ofArray).make ⟨0⟩).run { database := () }).1 = some 1 := by rfl

theorem rowsOf_ofObject : rowsOf (((requestOf ofObject).make ⟨0⟩).run { database := () }).1 = some 0 := by rfl

/-- So many seconds after the start. -/
def atSecond (n : Int32) : Instant := (⟨0⟩ : Instant).after (.ofSeconds n)

/-- Two callers ask one request, and their threads go on in turn. -/
def inTurn (c : Call Unit) : List (Event Unit) :=
  [.ask c, .ask c, .go 0 ⟨0⟩ ⟨0⟩, .go 1 ⟨0⟩ ⟨0⟩, .go 0 ⟨0⟩ ⟨0⟩, .go 1 ⟨0⟩ ⟨0⟩, .go 0 ⟨0⟩ ⟨0⟩, .go 1 ⟨0⟩ ⟨0⟩]

/-- The request is asked again after a second, after 61, when the response is stale and made anew, and after 62. -/
def asMinutesPass (c : Call Unit) : List (Event Unit) :=
  inTurn c ++ Session.alone 2 c ⟨0⟩ (atSecond 1) ++ Session.alone 3 c ⟨0⟩ (atSecond 61)
    ++ Session.alone 5 c ⟨0⟩ (atSecond 62)

/-- Five callers ask one request with its filters in an object, and two of them are answered with a fresh response from
the cache and one with a stale one. -/
theorem Session.answered_as_without_cache_in_turn :
    ∃ c : Call Unit, Admissible {c} ∧ (∀ d ∈ ({c} : Set (Call Unit)), Members.Sorted d.params.filters)
      ∧ (∀ i ∈ [0, 1, 2, 3, 5], ((start 5 ()).run (asMinutesPass c)).threads[i]?
          = some (c, .answered ((c.answer ⟨0⟩ ⟨0⟩).run { database := () }).1))
      ∧ ((start 5 ()).run (asMinutesPass c)).state.cache.map Cache.counters
          = some { hits := 2, staleHits := 1, misses := 2 } := by
  let c := requestOf ofObject
  have admissible : Admissible {c} := by
    have alone := admissible_requests {ofObject} (by
      rintro _ rfl _ rfl
      rfl)
    rwa [Set.image_singleton] at alone
  have ordered : ∀ d ∈ ({c} : Set (Call Unit)), Members.Sorted d.params.filters := by
    rintro _ rfl
    exact (Members.sorted_ofList eleven.items).of_keys (List.map_map ..)
  have within : ∀ event ∈ asMinutesPass c, Event.Within {c} event := by
    simp [asMinutesPass, inTurn, alone, Event.Within]
  have answered (before : List (Event Unit)) {after : List (Event Unit)} {i : Nat}
      (split : asMinutesPass c = before ++ .ask c :: after)
      (asked : ((start 5 ()).run before).threads.length = i) (steps : 3 ≤ after.countP (Event.moves i)) :
      ((start 5 ()).run (asMinutesPass c)).threads[i]?
        = some (c, .answered ((c.answer ⟨0⟩ ⟨0⟩).run { database := () }).1) := by
    subst asked
    rw [split] at within ⊢
    exact (answered_as_without_cache admissible ordered 5 () before after c within ⟨0⟩ ⟨0⟩ ()).1 steps
  refine ⟨c, admissible, ordered, ?_, by decide +kernel⟩
  simp only [List.forall_mem_cons]
  exact ⟨answered [] rfl rfl (by decide), answered [.ask c] rfl rfl (by decide),
    answered (inTurn c) rfl (by decide +kernel) (by decide),
    answered (inTurn c ++ alone 2 c ⟨0⟩ (atSecond 1)) rfl (by decide +kernel) (by decide),
    answered (inTurn c ++ alone 2 c ⟨0⟩ (atSecond 1) ++ alone 3 c ⟨0⟩ (atSecond 61)) rfl (by decide +kernel)
      (by decide),
    List.forall_mem_nil _⟩

/-- An array of eleven filters and an object with the same filters have one key. So the object's request is answered
with the response to the array's, in whose statement the conditions stand in another order. -/
theorem Session.array_answered_for_object :
    Params.ofJson (.obj [("filters", eleven)]) = .ok ofArray
      ∧ Params.ofJson (.obj [("filters", .record eleven.items)]) = .ok ofObject
      ∧ Context.ofJson (.obj [("now_ms", .int 0)]) = .ok (requestOf ofArray).context
      ∧ Admissible {requestOf ofArray, requestOf ofObject}
      ∧ ∃ (events : List (Event Unit)) (i : Nat) (result : Outcome Response),
        (∀ event ∈ events, event.Within {requestOf ofArray, requestOf ofObject})
          ∧ ((start 5 ()).run events).threads[i]? = some (requestOf ofObject, .answered result)
          ∧ result ≠ (((requestOf ofObject).answer ⟨0⟩ ⟨0⟩).run { database := () }).1 := by
  have admissible : Admissible {requestOf ofArray, requestOf ofObject} := by
    have both := admissible_requests {ofArray, ofObject} (by
      rintro _ (rfl | rfl) _ (rfl | rfl)
      · rfl
      · exact toJson_ofArray
      · exact toJson_ofArray.symm
      · rfl)
    rwa [Set.image_pair] at both
  have same : (requestOf ofArray).key = (requestOf ofObject).key := by
    unfold Call.key requestOf keyOf
    rw [toJson_ofArray]
  obtain ⟨result, gives⟩ := admissible.exists_gives (.inl rfl)
  obtain ⟨other, gives'⟩ := admissible.exists_gives (.inr rfl)
  have found := rowsOf_ofArray
  have missed := rowsOf_ofObject
  rw [(gives ⟨0⟩ _).1] at found
  rw [(gives' ⟨0⟩ _).1] at missed
  cases result with
  | error failure => cases found
  | ok response =>
    have fresh : (0 : Int64) < ((⟨0⟩ : Instant).after (.ofSeconds 60)).nanoseconds := by decide
    have hit := Call.answer_after_miss same rfl rfl gives 5 () ⟨0⟩ fresh
    -- the array's request goes on alone, and then the object's
    obtain ⟨earlier, stored⟩ : ∃ earlier, earlier = alone (start 5 ()).threads.length (requestOf ofArray) ⟨0⟩ ⟨0⟩ :=
      ⟨_, rfl⟩
    have first : ((start 5 ()).run earlier).state = _ := stored ▸ (run_alone (start 5 ()) (requestOf ofArray) ⟨0⟩ ⟨0⟩).1
    have second := (run_alone ((start 5 ()).run earlier) (requestOf ofObject) ⟨0⟩ ⟨0⟩).2
    rw [first, hit, ← run_append] at second
    refine ⟨rfl, rfl, rfl, admissible, _, _, _, ?_, second, ?_⟩
    · rw [stored]
      simp [alone, Event.Within]
    · rw [gives'.answer]
      rintro rfl
      rw [missed] at found
      cases found

end TableQuery

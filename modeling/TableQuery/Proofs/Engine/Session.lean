import TableQuery.Proofs.Engine.Disclosure

/-!
# Requests side by side

Engines share a cache, and several requests are answered at once. Each is a thread that goes on in steps: a look-up, the
making of a response, a put and a mark are one step each, and between two steps of a thread others may take theirs. A
thread that finds a stale value starts another one for the refresh, which goes on after its request is answered and for
as long as it takes.

A session is what happens from the start: requests are asked, threads go on in any order, each step at its own times,
and entries are dropped from outside.

## What is proved

`Session.run_alone`: the engine's own answer is what a thread comes to that goes on undisturbed.
-/

namespace TableQuery

/-! ## Runs of an engine, step by step -/

namespace Engine

variable {σ : Type}

theorem run_tryCatch {α : Type} (x : Run σ α) (handle : Failure → Run σ α) (s : State σ) :
    (tryCatch x handle).run s = match x.run s with
      | (.ok a, next) => (.ok a, next)
      | (.error failure, next) => (handle failure).run next := by
  unfold ExceptT.run
  simp only [tryCatch, tryCatchThe, MonadExceptOf.tryCatch, ExceptT.tryCatch, ExceptT.mk, bind, StateT.bind]
  cases x s with
  | mk outcome next => cases outcome <;> rfl

variable (e : Engine σ) (key : Bytes) (make : Run σ Response) (now : Instant) (s : State σ)

/-- A refresh does not fail, and takes the mark off at its end. -/
theorem run_refresh :
    (e.refresh key make now).run s = (.ok (),
      let next := match make.run s with
        | (.ok response, made) => ((e.store key response now).run made).2
        | (.error _, made) => made
      { next with cache := next.cache.map fun cache => cache.unmark key }) := by
  unfold refresh
  rw [run_bind, run_tryCatch, run_bind]
  cases make.run s with
  | mk outcome made => cases outcome <;> rfl

theorem run_revalidate :
    (e.revalidate key make now).run s = (.ok (),
      match s.cache with
      | none => s
      | some cache =>
        let next := { s with cache := some (cache.mark key).2 }
        if (cache.mark key).1 then ((e.refresh key make now).run next).2 else next) := by
  obtain ⟨cache, database⟩ := s
  cases cache with
  | none => rfl
  | some cache =>
    unfold revalidate
    rw [run_bind]
    change ((do
      onCache fun _ => (cache.mark key).2
      if (cache.mark key).1 then e.refresh key make now) : Run σ Unit).run _ = _
    have marked : (onCache fun _ => (cache.mark key).2 : Run σ Unit).run { cache := some cache, database }
        = (.ok (), { cache := some (cache.mark key).2, database }) := rfl
    rw [run_bind, marked]
    dsimp only
    cases (cache.mark key).1 with
    | false => rfl
    | true =>
      rw [if_pos rfl, if_pos rfl]
      have fine : ((e.refresh key make now).run { cache := some (cache.mark key).2, database }).1 = .ok () :=
        congrArg Prod.fst (run_refresh e key make now _)
      exact Prod.ext fine rfl

theorem run_cached :
    (e.cached key make now).run s =
      match if e.table.cache.enabled then s.cache else none with
      | none => make.run s
      | some cache =>
        let next := { s with cache := some (cache.get key now).2.2 }
        match (cache.get key now).1 with
        | .fresh => (ofStored (cache.get key now).2.1).run next
        | .stale => (ofStored (cache.get key now).2.1).run ((e.revalidate key make now).run next).2
        | .miss =>
          match make.run next with
          | (.ok response, made) => (.ok response, ((e.store key response now).run made).2)
          | (.error failure, made) => (.error failure, made) := by
  unfold cached
  rw [run_bind]
  change ((match if e.table.cache.enabled then s.cache else none with
    | none => make
    | some cache => _) : Run σ Response).run s = _
  cases held : if e.table.cache.enabled then s.cache else none with
  | none => rfl
  | some cache =>
    have shared : s.cache = some cache := by
      split_ifs at held
      exact held
    dsimp only
    rw [run_bind]
    have looked : (onCache fun _ => (cache.get key now).2.2 : Run σ Unit).run s
        = (.ok (), { s with cache := some (cache.get key now).2.2 }) := by
      obtain ⟨_, database⟩ := s
      cases shared
      rfl
    rw [looked]
    dsimp only
    cases (cache.get key now).1 with
    | fresh => rfl
    | stale =>
      dsimp only
      rw [run_bind, run_revalidate]
    | miss =>
      dsimp only
      rw [run_bind]
      cases make.run _ with
      | mk outcome made => cases outcome <;> rfl

end Engine

open Engine

variable {σ : Type}

/-! ## Calls -/

/-- A request to one of the engines that share a cache. -/
structure Call (σ : Type) where
  engine : Engine σ
  kind : RequestKind
  params : Params
  context : Context

namespace Call

/-- The key of the call's response. -/
def key (c : Call σ) : Bytes := c.engine.keyOf c.kind c.params c.context

/-- Makes the response, whatever the cache holds. -/
def make (c : Call σ) (clock : Instant) : Run σ Response :=
  match c.kind with
  | .query => c.engine.produce c.params c.context clock
  | .grouped => c.engine.produceGrouped c.params c.context clock

/-- Answers the call. -/
def answer (c : Call σ) (clock now : Instant) : Run σ Response :=
  match c.kind with
  | .query => c.engine.query c.params c.context clock now
  | .grouped => c.engine.queryGrouped c.params c.context clock now

theorem answer_eq (c : Call σ) (clock now : Instant) :
    c.answer clock now = c.engine.cached c.key (c.make clock) now := by
  obtain ⟨engine, kind, params, context⟩ := c
  cases kind <;> rfl

end Call

/-! ## Threads -/

/-- How far a thread has come. -/
inductive Phase where
  /-- The cache is yet to be looked at. -/
  | asked
  /-- Nothing was found, and the response is yet to be made. -/
  | missed
  /-- The response is made and yet to be put into the cache. -/
  | made (response : Response)
  /-- A stale value was found, and its key is yet to be marked. -/
  | stale (value : Option Json)
  /-- The call is answered. -/
  | answered (result : Outcome Response)
  /-- The key is marked for this refresh, and the response is yet to be made anew. -/
  | refreshing
  /-- The response is made anew and yet to be put into the cache. -/
  | remade (response : Response)
  /-- The mark is yet to be taken off. -/
  | releasing
  /-- The refresh is over. -/
  | released

/-- What a thread comes to by a step. -/
structure Advance (σ : Type) where
  state : State σ
  phase : Phase
  /-- The refresh that the step starts, if it does. -/
  started : List Phase := []

namespace Phase

/-- The next step of a call's thread, at a time for requests without one and a time of the cache. -/
def advance (c : Call σ) (clock now : Instant) (s : State σ) : Phase → Advance σ
  | asked =>
    match if c.engine.table.cache.enabled then s.cache else none with
    | none =>
      let (result, next) := (c.make clock).run s
      ⟨next, answered result, []⟩
    | some cache =>
      let (found, value, looked) := cache.get c.key now
      let next := { s with cache := some looked }
      match found with
      | .fresh => ⟨next, answered ((ofStored value).run next).1, []⟩
      | .stale => ⟨next, stale value, []⟩
      | .miss => ⟨next, missed, []⟩
  | missed =>
    match (c.make clock).run s with
    | (.ok response, next) => ⟨next, made response, []⟩
    | (.error failure, next) => ⟨next, answered (.error failure), []⟩
  | made response => ⟨((c.engine.store c.key response now).run s).2, answered (.ok response), []⟩
  | stale value =>
    let result := ((ofStored value).run s).1
    match s.cache with
    | none => ⟨s, answered result, []⟩
    | some cache =>
      let (owned, marked) := cache.mark c.key
      ⟨{ s with cache := some marked }, answered result, if owned then [refreshing] else []⟩
  | refreshing =>
    match (c.make clock).run s with
    | (.ok response, next) => ⟨next, remade response, []⟩
    | (.error _, next) => ⟨next, releasing, []⟩
  | remade response => ⟨((c.engine.store c.key response now).run s).2, releasing, []⟩
  | releasing => ⟨{ s with cache := s.cache.map fun cache => cache.unmark c.key }, released, []⟩
  | answered result => ⟨s, answered result, []⟩
  | released => ⟨s, released, []⟩

end Phase

/-- What a step of a thread can be. -/
inductive Advances (c : Call σ) (clock now : Instant) (s : State σ) : Phase → Advance σ → Prop
  /-- The table is not cached, or there is no cache. -/
  | answer (result : Outcome Response) (next : State σ) (made : (c.make clock).run s = (result, next)) :
      Advances c clock now s .asked ⟨next, .answered result, []⟩
  | fresh (cache : Cache) (shared : s.cache = some cache) (found : (cache.get c.key now).1 = .fresh) :
      Advances c clock now s .asked
        ⟨{ s with cache := some (cache.get c.key now).2.2 },
          .answered ((ofStored (cache.get c.key now).2.1).run s).1, []⟩
  | stale (cache : Cache) (shared : s.cache = some cache) (found : (cache.get c.key now).1 = .stale) :
      Advances c clock now s .asked
        ⟨{ s with cache := some (cache.get c.key now).2.2 }, .stale (cache.get c.key now).2.1, []⟩
  | miss (cache : Cache) (shared : s.cache = some cache) (found : (cache.get c.key now).1 = .miss) :
      Advances c clock now s .asked ⟨{ s with cache := some (cache.get c.key now).2.2 }, .missed, []⟩
  | make (response : Response) (next : State σ) (made : (c.make clock).run s = (.ok response, next)) :
      Advances c clock now s .missed ⟨next, .made response, []⟩
  | fail (failure : Failure) (next : State σ) (failed : (c.make clock).run s = (.error failure, next)) :
      Advances c clock now s .missed ⟨next, .answered (.error failure), []⟩
  | store (response : Response) :
      Advances c clock now s (.made response)
        ⟨((c.engine.store c.key response now).run s).2, .answered (.ok response), []⟩
  | alone (value : Option Json) (unshared : s.cache = none) :
      Advances c clock now s (.stale value) ⟨s, .answered ((ofStored value).run s).1, []⟩
  | mark (value : Option Json) (cache : Cache) (shared : s.cache = some cache) (free : (cache.mark c.key).1 = true) :
      Advances c clock now s (.stale value)
        ⟨{ s with cache := some (cache.mark c.key).2 }, .answered ((ofStored value).run s).1, [.refreshing]⟩
  | busy (value : Option Json) (cache : Cache) (shared : s.cache = some cache) (taken : (cache.mark c.key).1 = false) :
      Advances c clock now s (.stale value)
        ⟨{ s with cache := some (cache.mark c.key).2 }, .answered ((ofStored value).run s).1, []⟩
  | remake (response : Response) (next : State σ) (made : (c.make clock).run s = (.ok response, next)) :
      Advances c clock now s .refreshing ⟨next, .remade response, []⟩
  | giveUp (failure : Failure) (next : State σ) (failed : (c.make clock).run s = (.error failure, next)) :
      Advances c clock now s .refreshing ⟨next, .releasing, []⟩
  | restore (response : Response) :
      Advances c clock now s (.remade response)
        ⟨((c.engine.store c.key response now).run s).2, .releasing, []⟩
  | release :
      Advances c clock now s .releasing
        ⟨{ s with cache := s.cache.map fun cache => cache.unmark c.key }, .released, []⟩
  | idle (result : Outcome Response) : Advances c clock now s (.answered result) ⟨s, .answered result, []⟩
  | finished : Advances c clock now s .released ⟨s, .released, []⟩

theorem advances_advance (c : Call σ) (clock now : Instant) (s : State σ) (phase : Phase) :
    Advances c clock now s phase (phase.advance c clock now s) := by
  cases phase with
  | asked =>
    rw [Phase.advance]
    cases held : if c.engine.table.cache.enabled then s.cache else none with
    | none => exact .answer _ _ rfl
    | some cache =>
      have shared : s.cache = some cache := by
        split_ifs at held
        exact held
      dsimp only
      split
      · next found => exact .fresh cache shared found
      · next found => exact .stale cache shared found
      · next found => exact .miss cache shared found
  | missed =>
    rw [Phase.advance]
    split
    · next response next made => exact .make response next made
    · next failure next failed => exact .fail failure next failed
  | made response => exact .store response
  | stale value =>
    rw [Phase.advance]
    cases shared : s.cache with
    | none => exact .alone value shared
    | some cache =>
      dsimp only
      cases owned : (cache.mark c.key).1 with
      | true => exact .mark value cache shared owned
      | false => exact .busy value cache shared owned
  | answered result => exact .idle result
  | refreshing =>
    rw [Phase.advance]
    split
    · next response next made => exact .remake response next made
    · next failure next failed => exact .giveUp failure next failed
  | remade response => exact .restore response
  | releasing => exact .release
  | released => exact .finished

/-! ## Sessions -/

/-- The state that calls share, and the threads in the order in which they started. -/
structure Session (σ : Type) where
  state : State σ
  threads : List (Call σ × Phase) := []

/-- Something that happens in a session. -/
inductive Event (σ : Type) where
  /-- A call begins. -/
  | ask (call : Call σ)
  /-- A thread takes its next step. -/
  | go (thread : Nat) (clock now : Instant)
  /-- The entry of a key is dropped. -/
  | invalidate (key : Bytes)
  /-- All entries are dropped. -/
  | clear

namespace Session

/-- An empty session with a cache of some capacity. -/
def start (capacity : Nat) (database : σ) : Session σ :=
  { state := { cache := some (Cache.ofCapacity capacity), database } }

/-- Changes the cache. -/
def changeCache (s : Session σ) (change : Cache → Cache) : Session σ :=
  { s with state.cache := s.state.cache.map change }

/-- What a session comes to by an event. -/
def step (s : Session σ) : Event σ → Session σ
  | .ask call => { s with threads := s.threads ++ [(call, .asked)] }
  | .go i clock now =>
    match s.threads[i]? with
    | none => s
    | some (call, phase) =>
      let next := phase.advance call clock now s.state
      { state := next.state
        threads := s.threads.set i (call, next.phase) ++ next.started.map fun phase => (call, phase) }
  | .invalidate key => s.changeCache fun cache => cache.invalidate key
  | .clear => s.changeCache Cache.clear

/-- What a session comes to by events, one after another. -/
def run (s : Session σ) (events : List (Event σ)) : Session σ := events.foldl step s

theorem run_append (s : Session σ) (events later : List (Event σ)) :
    s.run (events ++ later) = (s.run events).run later :=
  List.foldl_append

/-- A step of a thread, which stands between others. -/
theorem step_go (state : State σ) (front back : List (Call σ × Phase)) (c : Call σ) (phase : Phase)
    (clock now : Instant) :
    step ⟨state, front ++ (c, phase) :: back⟩ (.go front.length clock now) =
      { state := (phase.advance c clock now state).state
        threads := front ++ (c, (phase.advance c clock now state).phase)
          :: (back ++ (phase.advance c clock now state).started.map fun phase => (c, phase)) } := by
  have thread : (front ++ (c, phase) :: back)[front.length]? = some (c, phase) := by
    rw [List.getElem?_append_right (Nat.le_refl _), Nat.sub_self]
    rfl
  rw [step, thread]
  dsimp only
  rw [List.set_append_right _ _ (Nat.le_refl _), Nat.sub_self, List.set_cons_zero, List.append_assoc, List.cons_append]

/-- A thread that there is not takes no step. -/
theorem step_go_of_le {s : Session σ} {i : Nat} (absent : s.threads.length ≤ i) (clock now : Instant) :
    s.step (.go i clock now) = s := by
  rw [step, List.getElem?_eq_none absent]

/-- A step of a thread takes it on. -/
theorem thread_step_go {s : Session σ} {i : Nat} {c : Call σ} {phase : Phase} (thread : s.threads[i]? = some (c, phase))
    (clock now : Instant) :
    (s.step (.go i clock now)).threads[i]? = some (c, (phase.advance c clock now s.state).phase) := by
  obtain ⟨present, -⟩ := List.getElem?_eq_some_iff.mp thread
  rw [step, thread]
  dsimp only
  rw [List.getElem?_append_left (by rwa [List.length_set]), List.getElem?_set_self present]

/-- Nothing but its own steps changes a thread. -/
theorem thread_step_of_ne {s : Session σ} {i : Nat} {c : Call σ} {phase : Phase}
    (thread : s.threads[i]? = some (c, phase)) {event : Event σ} (other : ∀ clock now, event ≠ .go i clock now) :
    (s.step event).threads[i]? = some (c, phase) := by
  obtain ⟨present, -⟩ := List.getElem?_eq_some_iff.mp thread
  cases event with
  | ask d => exact (List.getElem?_append_left present).trans thread
  | invalidate key => exact thread
  | clear => exact thread
  | go j clock now =>
    have apart : j ≠ i := fun same => other clock now (same ▸ rfl)
    cases found : s.threads[j]? with
    | none =>
      rw [step, found]
      exact thread
    | some moved =>
      rw [step, found]
      dsimp only
      rw [List.getElem?_append_left (by rwa [List.length_set]), List.getElem?_set_ne apart, thread]

/-! ## A thread alone -/

/-- A call that goes on undisturbed, with the refresh that it may start after it. -/
def alone (i : Nat) (c : Call σ) (clock now : Instant) : List (Event σ) :=
  [.ask c, .go i clock now, .go i clock now, .go i clock now, .go (i + 1) clock now, .go (i + 1) clock now,
    .go (i + 1) clock now]

section Alone

variable (state : State σ) (front : List (Call σ × Phase)) (c : Call σ) (clock now : Instant)

/-- The steps that are left to a thread and to the refresh after it. -/
def rest (owner refresher : Nat) : List (Event σ) :=
  List.replicate owner (.go front.length clock now) ++ List.replicate refresher (.go (front.length + 1) clock now)

theorem run_owner (back : List (Call σ × Phase)) (phase : Phase) (owner refresher : Nat) :
    run ⟨state, front ++ (c, phase) :: back⟩ (rest front clock now (owner + 1) refresher)
      = run
        ⟨(phase.advance c clock now state).state,
          front ++ (c, (phase.advance c clock now state).phase)
            :: (back ++ (phase.advance c clock now state).started.map fun phase => (c, phase))⟩
        (rest front clock now owner refresher) :=
  congrArg (fun s => run s _) (step_go state front back c phase clock now)

theorem run_refresher (result : Outcome Response) (phase : Phase) (refresher : Nat) :
    run ⟨state, front ++ [(c, .answered result), (c, phase)]⟩ (rest front clock now 0 (refresher + 1))
      = run
        ⟨(phase.advance c clock now state).state,
          front ++ (c, .answered result) :: (c, (phase.advance c clock now state).phase)
            :: (phase.advance c clock now state).started.map fun phase => (c, phase)⟩
        (rest front clock now 0 refresher) := by
  have next := step_go state (front ++ [(c, .answered result)]) [] c phase clock now
  rw [List.length_append, List.append_assoc, List.append_assoc] at next
  exact congrArg (fun s => run s _) next

theorem run_idle (back : List (Call σ × Phase)) (result : Outcome Response) (owner refresher : Nat) :
    run ⟨state, front ++ (c, .answered result) :: back⟩ (rest front clock now (owner + 1) refresher)
      = run ⟨state, front ++ (c, .answered result) :: back⟩ (rest front clock now owner refresher) := by
  rw [run_owner, Phase.advance, List.map_nil, List.append_nil]

theorem run_answered (result : Outcome Response) (owner refresher : Nat) :
    run ⟨state, front ++ [(c, .answered result)]⟩ (rest front clock now owner refresher)
      = ⟨state, front ++ [(c, .answered result)]⟩ := by
  induction owner with
  | succ owner ih => rw [run_idle, ih]
  | zero =>
    induction refresher with
    | zero => rfl
    | succ refresher ih =>
      have absent : step ⟨state, front ++ [(c, .answered result)]⟩ (.go (front.length + 1) clock now)
          = ⟨state, front ++ [(c, .answered result)]⟩ :=
        step_go_of_le (by rw [List.length_append]; exact Nat.le_refl _) clock now
      exact (congrArg (fun s => run s _) absent).trans ih

/-- A thread that has found a stale value answers with it, and the refresh that it may start goes on to its end. -/
theorem run_stale (value : Option Json) :
    ∃ back, run ⟨state, front ++ [(c, .stale value)]⟩ (rest front clock now 2 3)
      = ⟨((c.engine.revalidate c.key (c.make clock) now).run state).2,
        front ++ (c, .answered ((ofStored value).run state).1) :: back⟩ := by
  rw [run_owner, Phase.advance, run_revalidate]
  cases shared : state.cache with
  | none => exact ⟨[], run_answered _ front c clock now _ 1 3⟩
  | some cache =>
    dsimp only
    cases (cache.mark c.key).1 with
    | false => exact ⟨[], run_answered _ front c clock now _ 1 3⟩
    | true =>
      simp only [if_true, List.map_cons, List.map_nil, List.nil_append]
      rw [run_idle, run_refresher, run_refresh, Phase.advance]
      cases (c.make clock).run { state with cache := some (cache.mark c.key).2 } with
      | mk outcome made =>
        cases outcome with
        | error failure =>
          simp only [List.map_nil]
          rw [run_refresher, Phase.advance, List.map_nil, run_refresher]
          exact ⟨[(c, .released)], rfl⟩
        | ok response =>
          simp only [List.map_nil]
          rw [run_refresher, Phase.advance, List.map_nil, run_refresher]
          exact ⟨[(c, .released)], rfl⟩

end Alone

/-- The engine's own answer is what a thread comes to that goes on undisturbed. -/
theorem run_alone (s : Session σ) (c : Call σ) (clock now : Instant) :
    (s.run (alone s.threads.length c clock now)).state = ((c.answer clock now).run s.state).2
      ∧ (s.run (alone s.threads.length c clock now)).threads[s.threads.length]?
        = some (c, .answered ((c.answer clock now).run s.state).1) := by
  obtain ⟨state, front⟩ := s
  dsimp only
  suffices came : ∃ back, run ⟨state, front⟩ (alone front.length c clock now)
      = ⟨((c.answer clock now).run state).2, front ++ (c, .answered ((c.answer clock now).run state).1) :: back⟩ by
    obtain ⟨back, came⟩ := came
    rw [came]
    refine ⟨rfl, ?_⟩
    rw [List.getElem?_append_right (Nat.le_refl _), Nat.sub_self]
    rfl
  have asked : run ⟨state, front⟩ (alone front.length c clock now)
      = run ⟨state, front ++ [(c, .asked)]⟩ (rest front clock now 3 3) := rfl
  rw [asked, run_owner, Call.answer_eq, run_cached, Phase.advance]
  cases held : if c.engine.table.cache.enabled then state.cache else none with
  | none => exact ⟨[], run_answered _ front c clock now _ 2 3⟩
  | some cache =>
    dsimp only
    cases (cache.get c.key now).1 with
    | fresh => exact ⟨[], run_answered _ front c clock now _ 2 3⟩
    | stale => exact run_stale _ front c clock now _
    | miss =>
      simp only [List.map_nil, List.append_nil]
      rw [run_owner, Phase.advance]
      cases (c.make clock).run { state with cache := some (cache.get c.key now).2.2 } with
      | mk outcome made =>
        cases outcome with
        | error failure => exact ⟨[], run_answered _ front c clock now _ 1 3⟩
        | ok response =>
          simp only [List.map_nil, List.append_nil]
          rw [run_owner]
          exact ⟨[], run_answered _ front c clock now _ 0 3⟩

end Session

end TableQuery

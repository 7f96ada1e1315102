import TableQuery.Proofs.Engine.SingleFlight

/-!
# What an invalidation leaves behind

Dropping the entry of a key takes away what the cache holds at that time. It stops no thread: a response that was being
made, or was made and not yet put, is put all the same, since a put asks for nothing but its key. So a value that is
found after the drop was put after it, and was made after it too unless its thread was under way when the entry was
dropped.

## What is proved

`Session.thread_of_step` and `Session.entries_step`: what one event can do to a thread and to the entries.
`Session.found_after_invalidate`: where a value comes from that is found after its key was dropped, and
`Session.returned_after_invalidate`: it may have been made before.
-/

namespace TableQuery

open Engine

variable {σ : Type}

/-! ## Threads under way -/

namespace Phase

/-- The response that a thread has made and not yet put into the cache. -/
def response? : Phase → Option Response
  | made response | remade response => some response
  | asked | missed | stale _ | answered _ | refreshing | releasing | released => none

/-- Whether a thread is about to make its response. -/
def isMaking : Phase → Bool
  | missed | refreshing => true
  | asked | made _ | stale _ | answered _ | remade _ | releasing | released => false

/-- Whether a thread is between its look-up, or its mark, and its put. -/
def isUnderWay (phase : Phase) : Bool := phase.isMaking || phase.response?.isSome

/-- A thread that has a response after its step made it by the step. -/
theorem response?_advance {c : Call σ} {clock now : Instant} {s : State σ} {phase : Phase} {response : Response}
    (carried : (phase.advance c clock now s).phase.response? = some response) :
    phase.isMaking = true ∧ ((c.make clock).run s).1 = .ok response := by
  have advances := advances_advance c clock now s phase
  generalize phase.advance c clock now s = next at advances carried
  cases advances with
  | make _ _ made =>
    cases carried
    exact ⟨rfl, congrArg Prod.fst made⟩
  | remake _ _ made =>
    cases carried
    exact ⟨rfl, congrArg Prod.fst made⟩
  | _ => cases carried

/-- A thread that a step starts is a refresh which has made nothing yet. -/
theorem eq_refreshing_of_started {c : Call σ} {clock now : Instant} {s : State σ} {phase new : Phase}
    (started : new ∈ (phase.advance c clock now s).started) : new = .refreshing := by
  have advances := advances_advance c clock now s phase
  generalize phase.advance c clock now s = next at advances started
  cases advances with
  | mark => exact List.mem_singleton.mp started
  | _ => cases started

end Phase

/-! ## Entries -/

namespace Cache

theorem entries_get (c : Cache) (key : Bytes) (now : Instant) : (c.get key now).2.2.entries.Sublist c.entries := by
  have finds := finds_get c key now
  generalize c.get key now = found at finds ⊢
  cases finds with
  | expired => exact Members.erase_sublist key c.entries
  | _ => exact .refl _

theorem entries_put (c : Cache) (key : Bytes) (value : Json) (ttl staleWindow : Duration) (now : Instant) :
    ∃ kept e, kept.Sublist c.entries ∧ e.value = value
      ∧ (c.put key value ttl staleWindow now).entries = Members.insert key e kept := by
  unfold put evictOldest
  dsimp only
  split
  · split
    · exact ⟨_, _, .refl _, rfl, rfl⟩
    · exact ⟨_, _, Members.erase_sublist _ _, rfl, rfl⟩
  · exact ⟨_, _, .refl _, rfl, rfl⟩

theorem entries_mark (c : Cache) (key : Bytes) : (c.mark key).2.entries = c.entries := by
  unfold mark
  split <;> rfl

end Cache

/-- A step of a thread leaves entries out, or puts the response that the thread carries. -/
theorem Phase.entries_advance (c : Call σ) (clock now : Instant) {s : State σ} {cache : Cache}
    (shared : s.cache = some cache) (phase : Phase) :
    ∃ kept, kept.Sublist cache.entries
      ∧ ((phase.advance c clock now s).state.cache.map Cache.entries = some kept
        ∨ ∃ response e, phase.response? = some response ∧ e.value = response.toJson
          ∧ (phase.advance c clock now s).state.cache.map Cache.entries = some (Members.insert c.key e kept)) := by
  have made {outcome : Outcome Response} {next : State σ} (ran : (c.make clock).run s = (outcome, next)) :
      next.cache.map Cache.entries = some cache.entries := by
    rw [Call.cache_of_make ran, shared]
    rfl
  have stored (response : Response) : ∃ kept e, kept.Sublist cache.entries ∧ e.value = response.toJson
      ∧ ((c.engine.store c.key response now).run s).2.cache.map Cache.entries = some (Members.insert c.key e kept) := by
    obtain ⟨kept, e, sublist, value, put⟩ := cache.entries_put c.key response.toJson _ _ now
    refine ⟨kept, e, sublist, value, ?_⟩
    have run : ((c.engine.store c.key response now).run s).2.cache = s.cache.map _ := rfl
    rw [run, shared, Option.map_some, Option.map_some, put]
  have looked {found : Cache} (held : s.cache = some found) : (found.get c.key now).2.2.entries.Sublist cache.entries := by
    rw [shared] at held
    cases held
    exact cache.entries_get c.key now
  have marked {found : Cache} (held : s.cache = some found) : (found.mark c.key).2.entries = cache.entries := by
    rw [shared] at held
    cases held
    exact cache.entries_mark c.key
  have advances := advances_advance c clock now s phase
  generalize phase.advance c clock now s = next at advances ⊢
  cases advances with
  | answer result next ran => exact ⟨_, .refl _, .inl (made ran)⟩
  | fresh found held => exact ⟨_, looked held, .inl rfl⟩
  | stale found held => exact ⟨_, looked held, .inl rfl⟩
  | miss found held => exact ⟨_, looked held, .inl rfl⟩
  | make response next ran => exact ⟨_, .refl _, .inl (made ran)⟩
  | fail failure next ran => exact ⟨_, .refl _, .inl (made ran)⟩
  | store response =>
    obtain ⟨kept, e, sublist, value, put⟩ := stored response
    exact ⟨kept, sublist, .inr ⟨response, e, rfl, value, put⟩⟩
  | alone value unshared =>
    rw [shared] at unshared
    cases unshared
  | mark value found held => exact ⟨_, .refl _, .inl (congrArg some (marked held))⟩
  | busy value found held => exact ⟨_, .refl _, .inl (congrArg some (marked held))⟩
  | remake response next ran => exact ⟨_, .refl _, .inl (made ran)⟩
  | giveUp failure next ran => exact ⟨_, .refl _, .inl (made ran)⟩
  | restore response =>
    obtain ⟨kept, e, sublist, value, put⟩ := stored response
    exact ⟨kept, sublist, .inr ⟨response, e, rfl, value, put⟩⟩
  | release =>
    refine ⟨_, .refl _, .inl ?_⟩
    rw [shared]
    rfl
  | idle result => exact ⟨_, .refl _, .inl (congrArg (Option.map Cache.entries) shared)⟩
  | finished => exact ⟨_, .refl _, .inl (congrArg (Option.map Cache.entries) shared)⟩

/-! ## One event of a session -/

namespace Session

variable {s : Session σ} {i : Nat} {key : Bytes} {response : Response}

/-- A thread between its look-up and its put. -/
def IsUnderWay (s : Session σ) (i : Nat) (key : Bytes) : Prop :=
  ∃ c phase, s.threads[i]? = some (c, phase) ∧ c.key = key ∧ phase.isUnderWay = true

/-- A thread that makes a response by its next step. -/
def Makes (s : Session σ) (i : Nat) (key : Bytes) (clock : Instant) (response : Response) : Prop :=
  ∃ c phase, s.threads[i]? = some (c, phase) ∧ c.key = key ∧ phase.isMaking = true
    ∧ ((c.make clock).run s.state).1 = .ok response

/-- A thread that puts a response by its next step. -/
def Carries (s : Session σ) (i : Nat) (key : Bytes) (response : Response) : Prop :=
  ∃ c phase, s.threads[i]? = some (c, phase) ∧ c.key = key ∧ phase.response? = some response

theorem Carries.isUnderWay (carries : s.Carries i key response) : s.IsUnderWay i key := by
  obtain ⟨c, phase, thread, named, carried⟩ := carries
  refine ⟨c, phase, thread, named, ?_⟩
  rw [Phase.isUnderWay, carried]
  exact Bool.or_true _

theorem old_or_new {threads started : List (Call σ × Phase)} {thread : Call σ × Phase}
    (found : (threads ++ started)[i]? = some thread) : threads[i]? = some thread ∨ thread ∈ started := by
  rw [List.getElem?_append] at found
  split_ifs at found
  · exact .inl found
  · exact .inr (List.mem_of_getElem? found)

/-- A thread after an event is as it was, has just begun, or took a step. -/
theorem thread_of_step {event : Event σ} {c : Call σ} {phase : Phase}
    (thread : (s.step event).threads[i]? = some (c, phase)) :
    s.threads[i]? = some (c, phase) ∨ phase = .asked ∨ phase = .refreshing
      ∨ ∃ clock now before, event = .go i clock now ∧ s.threads[i]? = some (c, before)
        ∧ phase = (before.advance c clock now s.state).phase := by
  cases event with
  | invalidate key => exact .inl thread
  | clear => exact .inl thread
  | ask call =>
    rcases old_or_new thread with old | new
    · exact .inl old
    · cases List.mem_singleton.mp new
      exact .inr (.inl rfl)
  | go j clock now =>
    cases found : s.threads[j]? with
    | none =>
      rw [step_go_of_le (List.getElem?_eq_none_iff.mp found)] at thread
      exact .inl thread
    | some moved =>
      obtain ⟨d, before⟩ := moved
      rw [step, found] at thread
      rcases old_or_new thread with old | new
      · rw [List.getElem?_set] at old
        split_ifs at old with same
        · cases old
          subst same
          exact .inr (.inr (.inr ⟨clock, now, before, rfl, found, rfl⟩))
        · exact .inl old
      · obtain ⟨started, mem, eq⟩ := List.mem_map.mp new
        cases eq
        exact .inr (.inr (.inl (Phase.eq_refreshing_of_started mem)))

/-- A thread comes to carry a response by making it. -/
theorem carries_of_step {event : Event σ} (carries : (s.step event).Carries i key response) :
    s.Carries i key response ∨ ∃ clock now, event = .go i clock now ∧ s.Makes i key clock response := by
  obtain ⟨c, phase, thread, named, carried⟩ := carries
  obtain old | rfl | rfl | ⟨clock, now, before, rfl, found, rfl⟩ := thread_of_step thread
  · exact .inl ⟨c, phase, old, named, carried⟩
  · cases carried
  · cases carried
  · obtain ⟨making, made⟩ := Phase.response?_advance carried
    exact .inr ⟨clock, now, rfl, c, before, found, named, making, made⟩

/-- An event leaves entries out, or is the step of a thread that puts the response it carries. -/
theorem entries_step {entries : Members Cache.Entry} (held : s.entries = some entries) (event : Event σ) :
    ∃ kept, kept.Sublist entries
      ∧ ((s.step event).entries = some kept
        ∨ ∃ i clock now key response e, event = .go i clock now ∧ s.Carries i key response
          ∧ e.value = response.toJson ∧ (s.step event).entries = some (Members.insert key e kept)) := by
  obtain ⟨cache, shared, rfl⟩ := Option.map_eq_some_iff.mp held
  cases event with
  | ask call => exact ⟨_, .refl _, .inl held⟩
  | invalidate key =>
    refine ⟨_, Members.erase_sublist key cache.entries, .inl ?_⟩
    rw [entries, step, changeCache, shared]
    rfl
  | clear =>
    refine ⟨[], List.nil_sublist _, .inl ?_⟩
    rw [entries, step, changeCache, shared]
    rfl
  | go i clock now =>
    cases found : s.threads[i]? with
    | none =>
      rw [step_go_of_le (List.getElem?_eq_none_iff.mp found)]
      exact ⟨_, .refl _, .inl held⟩
    | some thread =>
      obtain ⟨c, phase⟩ := thread
      have state : (s.step (.go i clock now)).state = (phase.advance c clock now s.state).state := by
        rw [step, found]
      obtain ⟨kept, sublist, left | ⟨response, e, carried, value, put⟩⟩ := phase.entries_advance c clock now shared
      · refine ⟨kept, sublist, .inl ?_⟩
        rw [entries, state, left]
      · refine ⟨kept, sublist, .inr ⟨i, clock, now, c.key, response, e, rfl, ⟨c, phase, found, rfl, carried⟩, value, ?_⟩⟩
        rw [entries, state, put]

/-! ## Whole sessions -/

/-- The session has a cache, with its entries in the order of their keys. -/
def Stores (s : Session σ) : Prop := ∃ entries, s.entries = some entries ∧ Members.Sorted entries

theorem Stores.step (stores : s.Stores) (event : Event σ) : (s.step event).Stores := by
  obtain ⟨entries, held, sorted⟩ := stores
  obtain ⟨kept, sublist, next⟩ := entries_step held event
  have still : Members.Sorted kept :=
    Members.sorted_iff.mpr ((Members.sorted_iff.mp sorted).sublist (sublist.map Prod.fst))
  obtain left | ⟨-, -, -, key, response, e, -, -, -, put⟩ := next
  · exact ⟨kept, left, still⟩
  · exact ⟨_, put, still.insert⟩

theorem Stores.run (stores : s.Stores) (events : List (Event σ)) : (s.run events).Stores := by
  induction events generalizing s with
  | nil => exact stores
  | cons event events ih => exact ih (stores.step event)

theorem stores_start (capacity : Nat) (database : σ) : (start capacity database).Stores := ⟨[], rfl, trivial⟩

/-- What does not hold at first and holds at the end comes to hold by one of the events. -/
theorem exists_turn {P : Session σ → Prop} {events : List (Event σ)} (first : ¬P s) (last : P (s.run events)) :
    ∃ earlier event later, events = earlier ++ event :: later ∧ ¬P (s.run earlier)
      ∧ P ((s.run earlier).step event) := by
  induction events generalizing s with
  | nil => exact absurd last first
  | cons event events ih =>
    by_cases here : P (s.step event)
    · exact ⟨[], event, events, rfl, first, here⟩
    · obtain ⟨earlier, turn, later, rfl, before, after⟩ := ih here last
      exact ⟨event :: earlier, turn, later, rfl, before, after⟩

/-- Some entry of a key has a value. -/
def Has (s : Session σ) (key : Bytes) (value : Json) : Prop :=
  ∃ entries e, s.entries = some entries ∧ (key, e) ∈ entries ∧ e.value = value

/-- A value comes into the cache by a put. -/
theorem has_of_step (stores : s.Stores) {event : Event σ} {value : Json} (absent : ¬s.Has key value)
    (present : (s.step event).Has key value) :
    ∃ i clock now response, event = .go i clock now ∧ s.Carries i key response ∧ value = response.toJson := by
  obtain ⟨entries, held, -⟩ := stores
  obtain ⟨after, e, held', mem, rfl⟩ := present
  obtain ⟨kept, sublist, left | ⟨i, clock, now, other, response, new, rfl, carries, value, put⟩⟩ :=
    entries_step held event
  · rw [held'] at left
    cases left
    exact absurd ⟨entries, e, held, sublist.subset mem, rfl⟩ absent
  · rw [held'] at put
    cases put
    rcases Members.mem_insert mem with same | old
    · cases same
      exact ⟨i, clock, now, response, rfl, carries, value⟩
    · exact absurd ⟨entries, e, held, sublist.subset old, rfl⟩ absent

/-- Nothing is left under a key that is dropped. -/
theorem not_has_invalidate (stores : s.Stores) (key : Bytes) (value : Json) : ¬(s.step (.invalidate key)).Has key value := by
  obtain ⟨entries, held, sorted⟩ := stores
  obtain ⟨cache, shared, rfl⟩ := Option.map_eq_some_iff.mp held
  rintro ⟨after, e, held', mem, -⟩
  have dropped : (s.step (.invalidate key)).entries = some (Members.erase key cache.entries) := by
    rw [Session.entries, step, changeCache, shared]
    rfl
  rw [held'] at dropped
  cases dropped
  exact ((Members.mem_keys_erase sorted).mp (List.mem_map_of_mem mem)).1 rfl

/-- What a look-up finds is the value of an entry. -/
theorem has_of_get {cache : Cache} (shared : s.state.cache = some cache) {now : Instant} {value : Json}
    (found : (cache.get key now).2.1 = some value) : s.Has key value := by
  have finds := Cache.finds_get cache key now
  generalize cache.get key now = got at finds found
  have entries : s.entries = some cache.entries := congrArg (Option.map Cache.entries) shared
  cases finds with
  | fresh e held =>
    cases found
    exact ⟨_, e, entries, Members.mem_of_find? held, rfl⟩
  | stale e held =>
    cases found
    exact ⟨_, e, entries, Members.mem_of_find? held, rfl⟩
  | expired => cases found
  | absent => cases found

/-- After a key was dropped, whoever calls and however the threads take turns, a value that a look-up finds under it was
put there after the drop, by a thread that had made it as the response to a call with this key. Either that thread was
under way when the key was dropped, or it made the response after that too. -/
theorem found_after_invalidate (capacity : Nat) (database : σ) (before later : List (Event σ)) (key : Bytes)
    (now : Instant) :
    let s := (start capacity database).run before
    let dropped := s.step (.invalidate key)
    ∃ cache, (dropped.run later).state.cache = some cache ∧ ∀ value, (cache.get key now).2.1 = some value →
      ∃ i response first clock stored rest, later = first ++ .go i clock stored :: rest
        ∧ (dropped.run first).Carries i key response ∧ value = response.toJson
        ∧ (s.IsUnderWay i key
          ∨ ¬s.IsUnderWay i key ∧ ∃ earlier clock' made since, first = earlier ++ .go i clock' made :: since
            ∧ (dropped.run earlier).Makes i key clock' response) := by
  intro s dropped
  have stores : s.Stores := (stores_start capacity database).run before
  have still : dropped.Stores := stores.step _
  obtain ⟨entries, held, -⟩ := still.run later
  obtain ⟨cache, shared, -⟩ := Option.map_eq_some_iff.mp held
  refine ⟨cache, shared, fun value found => ?_⟩
  obtain ⟨first, put, rest, rfl, absent, present⟩ :=
    exists_turn (P := fun s => s.Has key value) (not_has_invalidate stores key value) (has_of_get shared found)
  obtain ⟨i, clock, stored, response, rfl, carries, rfl⟩ := has_of_step (still.run first) absent present
  refine ⟨i, response, first, clock, stored, rest, rfl, carries, rfl, ?_⟩
  by_cases underWay : s.IsUnderWay i key
  · exact .inl underWay
  · have empty : ¬dropped.Carries i key response := fun carried => underWay carried.isUnderWay
    obtain ⟨earlier, make, since, rfl, without, with'⟩ :=
      exists_turn (P := fun s => s.Carries i key response) empty carries
    obtain ⟨clock', made, rfl, makes⟩ := (carries_of_step with').resolve_left without
    exact .inr ⟨underWay, earlier, clock', made, since, rfl, makes⟩

/-- A put asks for nothing: whatever was dropped before it, what a thread puts is found while it is fresh. -/
theorem hit_of_put {c : Call σ} (thread : s.threads[i]? = some (c, .made response)) {cache : Cache}
    (shared : s.state.cache = some cache) (clock : Instant) {stored now : Instant}
    (fresh : now.nanoseconds < (stored.after (.ofSeconds c.engine.table.cache.ttl)).nanoseconds) :
    ∃ after, (s.step (.go i clock stored)).state.cache = some after
      ∧ (after.get c.key now).1 = .fresh ∧ (after.get c.key now).2.1 = some response.toJson := by
  refine ⟨_, ?_, cache.get_put c.key response.toJson (.ofSeconds c.engine.table.cache.staleWhileRevalidate) stored fresh⟩
  rw [step, thread]
  exact congrArg (Option.map _) shared

end Session

/-- A table whose responses are fresh for a minute. -/
def quotes : Table where
  name := "quotes"
  base := "quotes"
  columns := [{ name := "id" }]
  pagination := { enabled := false }
  cache := { enabled := true, ttl := 60 }

/-- A request for quotes. -/
def quoteCall : Call Bool where
  engine := { table := quotes, executor := answersOnce, transforms := .builtin }
  kind := .query
  params := {}
  context := {}

namespace Session

/-- The request found nothing in the cache, and has made its response. -/
def quoting : Session Bool := (start 5 false).run [.ask quoteCall, .go 0 ⟨0⟩ ⟨0⟩, .go 0 ⟨0⟩ ⟨0⟩]

theorem made_quoting : ∃ response, quoting.threads[0]? = some (quoteCall, .made response) := ⟨_, rfl⟩

theorem fresh_quotes : (0 : Int64) < ((⟨0⟩ : Instant).after (.ofSeconds quotes.cache.ttl)).nanoseconds := by decide

/-- What is found is what a thread was under way with. -/
theorem found_after_invalidate_quoting :
    ∃ cache i response, ((quoting.step (.invalidate quoteCall.key)).run [.go 0 ⟨0⟩ ⟨0⟩]).state.cache = some cache
      ∧ (cache.get quoteCall.key ⟨0⟩).2.1 = some response.toJson
      ∧ (quoting.step (.invalidate quoteCall.key)).Carries i quoteCall.key response
      ∧ quoting.IsUnderWay i quoteCall.key := by
  obtain ⟨response, thread⟩ := made_quoting
  obtain ⟨cache, shared, -, found⟩ :=
    hit_of_put (s := quoting.step (.invalidate quoteCall.key)) thread rfl ⟨0⟩ fresh_quotes
  obtain ⟨cache', shared', each⟩ := found_after_invalidate 5 false [.ask quoteCall, .go 0 ⟨0⟩ ⟨0⟩, .go 0 ⟨0⟩ ⟨0⟩]
    [.go 0 ⟨0⟩ ⟨0⟩] quoteCall.key ⟨0⟩
  obtain rfl : cache = cache' := Option.some.inj (shared.symm.trans shared')
  obtain ⟨i, response', first, clock, stored, rest, split, carries, same, underWay⟩ := each _ found
  -- there is one step after the drop, and it is the put
  have first_nil : first = [] := by
    cases first with
    | nil => rfl
    | cons event first => cases first <;> cases split
  subst first_nil
  refine ⟨cache, i, response', shared, found.trans (congrArg some same), carries, underWay.resolve_right ?_⟩
  rintro ⟨-, earlier, clock', made, since, none, -⟩
  cases earlier <;> cases none

/-- A response that was made before its key was dropped is returned after that, and as a fresh one. -/
theorem returned_after_invalidate :
    ∃ response cache, quoting.Carries 0 quoteCall.key response
      ∧ ((quoting.step (.invalidate quoteCall.key)).run [.go 0 ⟨0⟩ ⟨0⟩]).state.cache = some cache
      ∧ (cache.get quoteCall.key ⟨0⟩).1 = .fresh
      ∧ (cache.get quoteCall.key ⟨0⟩).2.1 = some response.toJson := by
  obtain ⟨response, thread⟩ := made_quoting
  obtain ⟨cache, hit⟩ := hit_of_put (s := quoting.step (.invalidate quoteCall.key)) thread rfl ⟨0⟩ fresh_quotes
  exact ⟨response, cache, ⟨quoteCall, _, thread, rfl, rfl⟩, hit⟩

end Session

end TableQuery

import TableQuery.Proofs.Cache.Store
import TableQuery.Proofs.Engine.Repeatable
import TableQuery.Proofs.Engine.Session

/-!
# One refresh at a time

A mark lives apart from the entry of its key. It is set after the look-up that found the entry stale, and by then the
entry may be fresh again, gone, or dropped for room; it is taken off at the end of the refresh, whatever came of that.
Marks keep the count all the same: each of them belongs to one refresh that is not over, and each such refresh has the
mark of its key. A step of a thread sets a mark that nobody has and starts the refresh which owns it, or takes off the
mark of the refresh that ends with it, or leaves the marks and the refreshes alone.

## What is proved

`Phase.marks_advance`: what a step does to the marks.
`Session.SingleFlight.step`: each step keeps marks and refreshes together.
`Session.single_flight`: what holds of the marks at every time of a session, and of a refresh that fails.
-/

namespace TableQuery

open Engine

variable {σ : Type}

/-! ## Making a response -/

/-- A run leaves the cache as it is. -/
def Engine.KeepsCache {α : Type} (x : Run σ α) : Prop := ∀ s, (x.run s).2.cache = s.cache

theorem Engine.throughout_keepsCache (e : Engine σ) : e.Throughout KeepsCache where
  done _ _ := rfl
  run _ _ := rfl
  bind {α β x f} hx hf s := by
    have first := hx s
    rw [run_bind]
    cases step : x.run s with
    | mk outcome next =>
      rw [step] at first
      cases outcome with
      | error failure => exact first
      | ok a => exact (hf a next).trans first

theorem Call.keepsCache_make (c : Call σ) (clock : Instant) : KeepsCache (c.make clock) := by
  unfold Call.make
  split
  · exact c.engine.throughout_keepsCache.produce _ _ _
  · exact c.engine.throughout_keepsCache.produceGrouped _ _ _

theorem Call.cache_of_make {c : Call σ} {clock : Instant} {s next : State σ} {outcome : Outcome Response}
    (made : (c.make clock).run s = (outcome, next)) : next.cache = s.cache := by
  have kept := c.keepsCache_make clock s
  rwa [made] at kept

/-! ## Marks -/

namespace Cache

theorem revalidating_get (c : Cache) (key : Bytes) (now : Instant) :
    (c.get key now).2.2.revalidating = c.revalidating := by
  have finds := finds_get c key now
  generalize c.get key now = found at finds ⊢
  cases finds <;> rfl

theorem revalidating_put (c : Cache) (key : Bytes) (value : Json) (ttl staleWindow : Duration) (now : Instant) :
    (c.put key value ttl staleWindow now).revalidating = c.revalidating := by
  unfold put evictOldest
  dsimp only
  split
  · split <;> rfl
  · rfl

theorem mark_of_free {c : Cache} {key : Bytes} (free : (c.mark key).1 = true) :
    key ∉ c.revalidating ∧ (c.mark key).2 = { c with revalidating := key :: c.revalidating } := by
  unfold mark at free ⊢
  split_ifs at free ⊢ with marked
  exact ⟨fun mem => marked (List.contains_iff_mem.mpr mem), rfl⟩

theorem mark_of_taken {c : Cache} {key : Bytes} (taken : (c.mark key).1 = false) : (c.mark key).2 = c := by
  unfold mark at taken ⊢
  split_ifs at taken ⊢
  rfl

end Cache

/-- Whether a thread is a refresh that is not over. -/
def Phase.isRefresh : Phase → Bool
  | refreshing | remade _ | releasing => true
  | asked | missed | made _ | stale _ | answered _ | released => false

/-- What a step of a thread can do to the marks and to the refreshes. -/
inductive Marks (c : Call σ) (s : State σ) : Phase → Advance σ → Prop
  /-- It leaves them alone. -/
  | kept {phase phase' : Phase} {next : State σ}
      (marks : next.cache.map Cache.revalidating = s.cache.map Cache.revalidating)
      (same : phase'.isRefresh = phase.isRefresh) : Marks c s phase ⟨next, phase', []⟩
  /-- It sets a mark that nobody has, and starts the refresh that owns it. -/
  | begun {phase phase' : Phase} {next : State σ} (cache : Cache) (shared : s.cache = some cache)
      (free : c.key ∉ cache.revalidating)
      (marks : next.cache.map Cache.revalidating = some (c.key :: cache.revalidating))
      (call : phase.isRefresh = false) (call' : phase'.isRefresh = false) :
      Marks c s phase ⟨next, phase', [.refreshing]⟩
  /-- It takes off the mark of the refresh that ends with it. -/
  | ended {phase phase' : Phase} {next : State σ}
      (marks : next.cache = s.cache.map fun cache => cache.unmark c.key) (refresh : phase.isRefresh = true)
      (refresh' : phase'.isRefresh = false) : Marks c s phase ⟨next, phase', []⟩

theorem marks_advance (c : Call σ) (clock now : Instant) (s : State σ) (phase : Phase) :
    Marks c s phase (phase.advance c clock now s) := by
  have advances := advances_advance c clock now s phase
  generalize phase.advance c clock now s = next at advances ⊢
  have made {outcome : Outcome Response} {next : State σ} (ran : (c.make clock).run s = (outcome, next)) :
      next.cache.map Cache.revalidating = s.cache.map Cache.revalidating :=
    congrArg (Option.map Cache.revalidating) (Call.cache_of_make ran)
  have looked {cache : Cache} (shared : s.cache = some cache) :
      (some (cache.get c.key now).2.2).map Cache.revalidating = s.cache.map Cache.revalidating := by
    rw [shared, Option.map_some, Option.map_some, cache.revalidating_get]
  have stored (response : Response) :
      ((c.engine.store c.key response now).run s).2.cache.map Cache.revalidating = s.cache.map Cache.revalidating := by
    show (s.cache.map _).map _ = _
    rw [Option.map_map]
    exact congrArg (Option.map · s.cache) (funext fun cache => cache.revalidating_put ..)
  cases advances with
  | answer result next ran => exact .kept (made ran) rfl
  | fresh cache shared found => exact .kept (looked shared) rfl
  | stale cache shared found => exact .kept (looked shared) rfl
  | miss cache shared found => exact .kept (looked shared) rfl
  | make response next ran => exact .kept (made ran) rfl
  | fail failure next ran => exact .kept (made ran) rfl
  | store response => exact .kept (stored response) rfl
  | alone value unshared => exact .kept rfl rfl
  | mark value cache shared free =>
    obtain ⟨unmarked, marked⟩ := Cache.mark_of_free free
    exact .begun cache shared unmarked (congrArg (fun cache : Cache => some cache.revalidating) marked) rfl rfl
  | busy value cache shared taken =>
    refine .kept ?_ rfl
    rw [shared, Cache.mark_of_taken taken]
  | remake response next ran => exact .kept (made ran) rfl
  | giveUp failure next ran => exact .kept (made ran) rfl
  | restore response => exact .kept (stored response) rfl
  | release => exact .ended rfl rfl rfl
  | idle result => exact .kept rfl rfl
  | finished => exact .kept rfl rfl

/-! ## One step of a session -/

namespace Session

/-- The keys of the refreshes among some threads that are not over, one for each. -/
def refreshKeys (threads : List (Call σ × Phase)) : List Bytes :=
  (threads.filter fun thread => thread.2.isRefresh).map fun thread => thread.1.key

theorem refreshKeys_append (front back : List (Call σ × Phase)) :
    refreshKeys (front ++ back) = refreshKeys front ++ refreshKeys back := by
  unfold refreshKeys
  rw [List.filter_append, List.map_append]

theorem refreshKeys_cons (c : Call σ) (phase : Phase) (threads : List (Call σ × Phase)) :
    refreshKeys ((c, phase) :: threads) = (if phase.isRefresh then [c.key] else []) ++ refreshKeys threads := by
  unfold refreshKeys
  rw [List.filter_cons]
  split_ifs <;> rfl

/-- The marks are those of the refreshes that are not over, one for each. -/
structure SingleFlight (s : Session σ) (marked : List Bytes) : Prop where
  marks : s.state.cache.map Cache.revalidating = some marked
  own : marked.Perm (refreshKeys s.threads)
  once : marked.Nodup

variable {s : Session σ} {marked : List Bytes}

theorem singleFlight_start (capacity : Nat) (database : σ) : (start capacity database).SingleFlight [] where
  marks := rfl
  own := .refl _
  once := List.nodup_nil

/-- A thread stands between others. -/
theorem exists_between {i : Nat} {thread : Call σ × Phase} (found : s.threads[i]? = some thread) :
    ∃ front back, s.threads = front ++ thread :: back ∧ front.length = i := by
  obtain ⟨present, rfl⟩ := List.getElem?_eq_some_iff.mp found
  refine ⟨s.threads.take i, s.threads.drop (i + 1), ?_, List.length_take_of_le (Nat.le_of_lt present)⟩
  rw [List.getElem_cons_drop, List.take_append_drop]

/-- A step of a thread takes marks along with refreshes. -/
theorem SingleFlight.go (flight : s.SingleFlight marked) (i : Nat) (clock now : Instant) :
    ∃ marked', (s.step (.go i clock now)).SingleFlight marked' := by
  cases found : s.threads[i]? with
  | none =>
    rw [step_go_of_le (List.getElem?_eq_none_iff.mp found)]
    exact ⟨marked, flight⟩
  | some thread =>
    obtain ⟨c, phase⟩ := thread
    obtain ⟨front, back, threads, rfl⟩ := exists_between found
    obtain ⟨state, all⟩ := s
    dsimp only at threads
    subst threads
    rw [step_go]
    obtain ⟨marks, own, once⟩ := flight
    dsimp only at marks own
    rw [refreshKeys_append, refreshKeys_cons] at own
    have turned := marks_advance c clock now state phase
    generalize phase.advance c clock now state = next at turned ⊢
    cases turned with
    | kept kept same =>
      refine ⟨marked, kept.trans marks, ?_, once⟩
      dsimp only
      rw [List.map_nil, List.append_nil, refreshKeys_append, refreshKeys_cons, same]
      exact own
    | begun cache shared free begun call call' =>
      rw [call, if_neg Bool.false_ne_true, List.nil_append] at own
      rw [shared] at marks
      cases marks
      refine ⟨c.key :: cache.revalidating, begun, ?_, List.nodup_cons.mpr ⟨free, once⟩⟩
      have last : refreshKeys ([Phase.refreshing].map fun phase => (c, phase)) = [c.key] := rfl
      dsimp only
      rw [refreshKeys_append, refreshKeys_cons, call', if_neg Bool.false_ne_true, List.nil_append, refreshKeys_append,
        last, ← List.append_assoc]
      exact (own.cons c.key).trans (List.perm_append_singleton ..).symm
    | ended unmarked refresh refresh' =>
      rw [refresh] at own
      -- the mark that is taken off belongs to this refresh alone
      have alone : marked.Perm (c.key :: (refreshKeys front ++ refreshKeys back)) := own.trans List.perm_middle
      have absent : c.key ∉ refreshKeys front ++ refreshKeys back := (List.nodup_cons.mp (alone.nodup once)).1
      have others : (c.key :: (refreshKeys front ++ refreshKeys back)).filter (fun k => k != c.key)
          = refreshKeys front ++ refreshKeys back := by
        rw [List.filter_cons_of_neg (by simp), List.filter_eq_self]
        intro k mem
        exact bne_iff_ne.mpr fun same => absent (same ▸ mem)
      refine ⟨marked.filter fun k => k != c.key, ?_, ?_, once.filter _⟩
      · obtain ⟨cache, shared, rfl⟩ := Option.map_eq_some_iff.mp marks
        dsimp only
        rw [unmarked, shared]
        rfl
      · dsimp only
        rw [List.map_nil, List.append_nil, refreshKeys_append, refreshKeys_cons, refresh']
        exact others ▸ alone.filter _

theorem SingleFlight.step (flight : s.SingleFlight marked) (event : Event σ) :
    ∃ marked', (s.step event).SingleFlight marked' := by
  cases event with
  | ask c =>
    refine ⟨marked, flight.marks, ?_, flight.once⟩
    have asked : refreshKeys (s.step (.ask c)).threads = refreshKeys s.threads := by
      rw [Session.step, refreshKeys_append]
      exact List.append_nil _
    rw [asked]
    exact flight.own
  | go i clock now => exact flight.go i clock now
  | invalidate key => exact ⟨marked, (Option.map_map ..).trans flight.marks, flight.own, flight.once⟩
  | clear => exact ⟨marked, (Option.map_map ..).trans flight.marks, flight.own, flight.once⟩

theorem SingleFlight.run (flight : s.SingleFlight marked) (events : List (Event σ)) :
    ∃ marked', (s.run events).SingleFlight marked' := by
  induction events generalizing s marked with
  | nil => exact ⟨marked, flight⟩
  | cons event events ih =>
    obtain ⟨marked', next⟩ := flight.step event
    exact ih next

/-! ## Refreshes -/

/-- A thread is a refresh for a key, and not over. -/
def Refreshes (s : Session σ) (i : Nat) (key : Bytes) : Prop :=
  ∃ c phase, s.threads[i]? = some (c, phase) ∧ phase.isRefresh = true ∧ c.key = key

theorem mem_refreshKeys {key : Bytes} : key ∈ refreshKeys s.threads ↔ ∃ i, s.Refreshes i key := by
  unfold refreshKeys
  rw [List.mem_map]
  constructor
  · rintro ⟨⟨c, phase⟩, mem, named⟩
    obtain ⟨mem, refresh⟩ := List.mem_filter.mp mem
    obtain ⟨i, found⟩ := List.mem_iff_getElem?.mp mem
    exact ⟨i, c, phase, found, refresh, named⟩
  · rintro ⟨i, c, phase, found, refresh, named⟩
    exact ⟨(c, phase), List.mem_filter.mpr ⟨List.mem_of_getElem? found, refresh⟩, named⟩

theorem SingleFlight.isMarked_iff (flight : s.SingleFlight marked) {cache : Cache} (shared : s.state.cache = some cache)
    (key : Bytes) : cache.isMarked key = true ↔ ∃ i, s.Refreshes i key := by
  obtain ⟨marks, own, -⟩ := flight
  rw [shared] at marks
  cases marks
  rw [Cache.isMarked, List.contains_iff_mem, own.mem_iff, mem_refreshKeys]

/-- No key has two refreshes. -/
theorem SingleFlight.unique (flight : s.SingleFlight marked) {key : Bytes} {i j : Nat} (first : s.Refreshes i key)
    (second : s.Refreshes j key) : i = j := by
  have once : (refreshKeys s.threads).Nodup := flight.own.nodup flight.once
  rw [refreshKeys, List.Nodup, List.pairwise_map, List.pairwise_filter, List.pairwise_iff_getElem] at once
  obtain ⟨c, phase, found, refresh, named⟩ := first
  obtain ⟨d, phase', found', refresh', named'⟩ := second
  obtain ⟨present, at_i⟩ := List.getElem?_eq_some_iff.mp found
  obtain ⟨present', at_j⟩ := List.getElem?_eq_some_iff.mp found'
  have same : c.key = d.key := named.trans named'.symm
  by_contra apart
  rcases Nat.lt_or_gt_of_ne apart with earlier | later
  · have different := once i j present present' earlier
    rw [at_i, at_j] at different
    exact different refresh refresh' same
  · have different := once j i present' present later
    rw [at_i, at_j] at different
    exact different refresh' refresh same.symm

/-! ## Refreshes that fail -/

/-- The entries of the cache, if there is one. -/
def entries (s : Session σ) : Option (Members Cache.Entry) := s.state.cache.map Cache.entries

/-- A thread is a refresh that has nothing left to put into the cache. -/
def Withdrawn (s : Session σ) (i : Nat) (c : Call σ) : Prop :=
  s.threads[i]? = some (c, .releasing) ∨ s.threads[i]? = some (c, .released)

variable {i : Nat} {c : Call σ}

/-- Such a thread does not change the entries. -/
theorem Withdrawn.entries_go (withdrawn : s.Withdrawn i c) (clock now : Instant) :
    (s.step (.go i clock now)).entries = s.entries := by
  unfold entries
  rcases withdrawn with thread | thread
  · rw [Session.step, thread]
    exact Option.map_map ..
  · rw [Session.step, thread]
    rfl

theorem Withdrawn.step (withdrawn : s.Withdrawn i c) (event : Event σ) : (s.step event).Withdrawn i c := by
  by_cases own : ∃ clock now, event = .go i clock now
  · obtain ⟨clock, now, rfl⟩ := own
    rcases withdrawn with thread | thread
    · exact .inr (thread_step_go thread clock now)
    · exact .inr (thread_step_go thread clock now)
  · have other : ∀ clock now, event ≠ .go i clock now := fun clock now same => own ⟨clock, now, same⟩
    exact withdrawn.imp (thread_step_of_ne · other) (thread_step_of_ne · other)

theorem Withdrawn.run (withdrawn : s.Withdrawn i c) (events : List (Event σ)) : (s.run events).Withdrawn i c := by
  induction events generalizing s with
  | nil => exact withdrawn
  | cons event events ih => exact ih (withdrawn.step event)

theorem advance_of_failure {state : State σ} {failure : Failure} {clock : Instant}
    (failed : ((c.make clock).run state).1 = .error failure) (now : Instant) :
    Phase.refreshing.advance c clock now state = ⟨((c.make clock).run state).2, .releasing, []⟩ := by
  rw [Phase.advance]
  cases made : (c.make clock).run state with
  | mk outcome next =>
    rw [made] at failed
    cases failed
    rfl

/-- A refresh whose response cannot be made changes nothing in the cache by that, and has nothing left to put there. -/
theorem withdrawn_of_failure {failure : Failure} {clock : Instant} (thread : s.threads[i]? = some (c, .refreshing))
    (failed : ((c.make clock).run s.state).1 = .error failure) (now : Instant) :
    (s.step (.go i clock now)).entries = s.entries ∧ (s.step (.go i clock now)).Withdrawn i c := by
  have advance := advance_of_failure failed now
  have next := thread_step_go thread clock now
  rw [advance] at next
  refine ⟨?_, .inl next⟩
  unfold entries
  rw [Session.step, thread]
  dsimp only
  rw [advance]
  exact congrArg (Option.map Cache.entries) (c.keepsCache_make clock s.state)

/-! ## Whole sessions -/

/-- At every time of a session, whoever calls and however the threads take turns, the marked keys are those of the
refreshes that are not over, and no key has two. So when all refreshes are over, no key is marked. A refresh whose
response cannot be made leaves the entries as they are, by that step and by all that it does later. -/
theorem single_flight (capacity : Nat) (database : σ) (events : List (Event σ)) :
    let s := (start capacity database).run events
    ∃ cache, s.state.cache = some cache
      ∧ (∀ key, cache.isMarked key = true ↔ ∃ i, s.Refreshes i key)
      ∧ (∀ key i j, s.Refreshes i key → s.Refreshes j key → i = j)
      ∧ ((∀ key i, ¬s.Refreshes i key) → cache.revalidating = [])
      ∧ ∀ i c clock now failure, s.threads[i]? = some (c, .refreshing) →
          ((c.make clock).run s.state).1 = .error failure →
        let failed := s.step (.go i clock now)
        failed.entries = s.entries
          ∧ ∀ later clock' now', ((failed.run later).step (.go i clock' now')).entries = (failed.run later).entries := by
  intro s
  obtain ⟨marked, flight⟩ := (singleFlight_start capacity database).run events
  obtain ⟨cache, shared, rfl⟩ := Option.map_eq_some_iff.mp flight.marks
  refine ⟨cache, shared, flight.isMarked_iff shared, fun key i j => flight.unique, fun finished => ?_,
    fun i c clock now failure thread failed => ?_⟩
  · rw [List.eq_nil_iff_forall_not_mem]
    intro key mem
    obtain ⟨i, refreshes⟩ := (flight.isMarked_iff shared key).mp (List.contains_iff_mem.mpr mem)
    exact finished key i refreshes
  · obtain ⟨kept, withdrawn⟩ := withdrawn_of_failure thread failed now
    exact ⟨kept, fun later clock' now' => (withdrawn.run later).entries_go clock' now'⟩

end Session

/-- A table whose responses are stale at once, and for an hour. -/
def ageing : Table where
  name := "prices"
  base := "prices"
  columns := [{ name := "id" }]
  pagination := { enabled := false }
  cache := { enabled := true, ttl := 0, staleWhileRevalidate := 3600 }

/-- An executor that answers one statement and refuses all others. -/
def answersOnce : Executor Bool where
  dialect := .sqlite
  execute _ spent := (if spent then .error (.fault (.query "refused" .null)) else .ok [], true)

namespace Session

/-- A first call is answered, and two others find its response stale. One of them starts a refresh. -/
def twoCallers : Session Bool :=
  let call : Call Bool :=
    { engine := { table := ageing, executor := answersOnce, transforms := .builtin }
      kind := .query, params := {}, context := {} }
  (start 5 false).run
    [.ask call, .go 0 ⟨0⟩ ⟨0⟩, .go 0 ⟨0⟩ ⟨0⟩, .go 0 ⟨0⟩ ⟨0⟩, .ask call, .ask call, .go 1 ⟨0⟩ ⟨0⟩, .go 2 ⟨0⟩ ⟨0⟩,
      .go 1 ⟨0⟩ ⟨0⟩, .go 2 ⟨0⟩ ⟨0⟩]

/-- The refresh is the only one for its key, and its response cannot be made. -/
theorem single_flight_twoCallers :
    ∃ (c : Call Bool) (failure : Failure), twoCallers.threads[3]? = some (c, .refreshing)
      ∧ ((c.make ⟨0⟩).run twoCallers.state).1 = .error failure
      ∧ (∀ i, twoCallers.Refreshes i c.key ↔ i = 3)
      ∧ (twoCallers.step (.go 3 ⟨0⟩ ⟨0⟩)).entries = twoCallers.entries := by
  have refused : twoCallers.threads[3]?.any (fun thread => thread.2.ctorIdx == Phase.refreshing.ctorIdx
      && !((thread.1.make ⟨0⟩).run twoCallers.state).1.isOk) = true := by decide +kernel
  cases thread : twoCallers.threads[3]? with
  | none =>
    rw [thread] at refused
    cases refused
  | some found =>
    obtain ⟨c, phase⟩ := found
    rw [thread, Option.any_some, Bool.and_eq_true] at refused
    obtain ⟨stage, refused⟩ := refused
    cases phase <;> cases stage
    cases failed : ((c.make ⟨0⟩).run twoCallers.state).1 with
    | ok response =>
      rw [failed] at refused
      cases refused
    | error failure =>
      obtain ⟨cache, -, -, unique, -, fails⟩ := single_flight 5 false _
      have own : twoCallers.Refreshes 3 c.key := ⟨c, .refreshing, thread, rfl, rfl⟩
      refine ⟨c, failure, rfl, failed, fun i => ⟨fun other => unique _ i 3 other own, ?_⟩, ?_⟩
      · rintro rfl
        exact own
      · exact (fails 3 c ⟨0⟩ ⟨0⟩ failure thread failed).1

end Session

end TableQuery

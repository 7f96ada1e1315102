import TableQuery.Proofs.Engine.Disclosure
import TableQuery.Proofs.Request.Written

/-!
# Responses that can be made again

Where an executor gives the same rows for the same statement, the response to a request depends on the request alone.
Of a request that carries its time the clock changes nothing, and of its context only what conditions can find in it
matters. Making a response leaves the cache as it is.

## What is proved

`Engine.repeatable_produce`, `Engine.repeatable_produceGrouped`: a response is the same in every state.
`Engine.produce_tidy`, `Engine.produceGrouped_tidy`: it is the same for contexts in which conditions find the same.
-/

namespace TableQuery

/-- What an executor gives for a statement depends on the statement alone. -/
def Executor.IsPure {σ : Type} (x : Executor σ) : Prop :=
  ∃ answer : Fragment → Outcome (List Json), ∀ statement state, (x.execute statement state).1 = answer statement

namespace Engine

variable {σ α β : Type} {e : Engine σ} {p : Params} {c : Context}

/-! ## From step to step -/

/-- Something that holds of results without a statement and of each statement, and goes on to hold from step to step. -/
structure Throughout (e : Engine σ) (P : ∀ {α : Type}, Run σ α → Prop) : Prop where
  done : ∀ {α : Type} (result : Outcome α), P (done result)
  run : ∀ statement, P (e.run statement)
  bind : ∀ {α β : Type} {x : Run σ α} {f : α → Run σ β}, P x → (∀ a, P (f a)) → P (x >>= f)

namespace Throughout

variable {P : ∀ {α : Type}, Run σ α → Prop} (h : e.Throughout P)
include h

theorem runCount (plan : Plan) : P (e.runCount plan) := by
  unfold Engine.runCount
  refine h.bind (h.run _) fun rows => ?_
  split
  · exact h.done _
  · exact h.done _

theorem runAggregations (plan : Option Plan) : P (e.runAggregations plan) := by
  cases plan with
  | none => exact h.done (.ok none)
  | some plan => exact h.bind (h.run _) fun rows => h.done (.ok _)

theorem produce (p : Params) (c : Context) (clock : Instant) : P (e.produce p c clock) := by
  unfold Engine.produce
  refine h.bind (h.done _) fun table => ?_
  refine h.bind (h.done _) fun compiled => ?_
  refine h.bind (h.run _) fun rows => ?_
  refine h.bind (h.runAggregations _) fun aggregations => ?_
  split
  · exact h.done _
  · split_ifs
    · exact h.bind (h.runCount _) fun total => h.done _
    · exact h.bind (h.done (.ok _)) fun total => h.done _

theorem produceGrouped (p : Params) (c : Context) (clock : Instant) : P (e.produceGrouped p c clock) := by
  unfold Engine.produceGrouped
  refine h.bind (h.done _) fun table => ?_
  refine h.bind (h.done _) fun plan => ?_
  exact h.bind (h.run _) fun rows => h.done _

end Throughout

/-! ## In every state -/

/-- A run has this result in every state, and leaves the cache as it is. -/
def Gives (x : Run σ α) (result : Outcome α) : Prop :=
  ∀ s, (x.run s).1 = result ∧ (x.run s).2.cache = s.cache

/-- A run has one result in all states. -/
def Repeatable (x : Run σ α) : Prop := ∃ result, Gives x result

theorem repeatable_bind {x : Run σ α} {f : α → Run σ β} (hx : Repeatable x) (hf : ∀ a, Repeatable (f a)) :
    Repeatable (x >>= f) := by
  obtain ⟨result, gives⟩ := hx
  cases result with
  | error failure =>
    refine ⟨.error failure, fun s => ?_⟩
    obtain ⟨failed, kept⟩ := gives s
    rw [run_bind]
    cases step : x.run s with
    | mk outcome next =>
      rw [step] at failed kept
      cases failed
      exact ⟨rfl, kept⟩
  | ok a =>
    obtain ⟨result, then'⟩ := hf a
    refine ⟨result, fun s => ?_⟩
    obtain ⟨made, kept⟩ := gives s
    rw [run_bind]
    cases step : x.run s with
    | mk outcome next =>
      rw [step] at made kept
      cases made
      obtain ⟨last, kept'⟩ := then' next
      exact ⟨last, kept'.trans kept⟩

theorem throughout_repeatable (pure : e.executor.IsPure) : e.Throughout Repeatable where
  done result := ⟨result, fun _ => ⟨rfl, rfl⟩⟩
  run statement := by
    obtain ⟨answer, answers⟩ := pure
    exact ⟨answer statement, fun s => ⟨answers statement s.database, rfl⟩⟩
  bind := repeatable_bind

theorem repeatable_produce (pure : e.executor.IsPure) (p : Params) (c : Context) (clock : Instant) :
    Repeatable (e.produce p c clock) :=
  (throughout_repeatable pure).produce p c clock

theorem repeatable_produceGrouped (pure : e.executor.IsPure) (p : Params) (c : Context) (clock : Instant) :
    Repeatable (e.produceGrouped p c clock) :=
  (throughout_repeatable pure).produceGrouped p c clock

/-! ## At every time of the clock -/

theorem today_of_timed (timed : c.Timed) (clock clock' : Instant) : c.today clock = c.today clock' := by
  obtain ⟨ms, given, -⟩ := timed
  unfold Context.today
  rw [given]
  rfl

theorem produce_of_timed (timed : c.Timed) (p : Params) (clock clock' : Instant) :
    e.produce p c clock = e.produce p c clock' := by
  unfold produce explain Table.compile
  rw [today_of_timed timed clock clock']

theorem produceGrouped_of_timed (timed : c.Timed) (p : Params) (clock clock' : Instant) :
    e.produceGrouped p c clock = e.produceGrouped p c clock' := by
  unfold produceGrouped Table.compileGrouped
  rw [today_of_timed timed clock clock']

/-! ## In a tidy context -/

theorem condition_tidy (r : Resolver) (p : Params) (c : Context) (day : Day) :
    r.condition p c.tidy day = r.condition p c day := by
  have backend : r.backendCondition c.tidy = r.backendCondition c := by
    funext condition
    unfold Resolver.backendCondition
    simp only [Context.lookup_tidy]
  unfold Resolver.condition Resolver.scope Resolver.backendConditions
  rw [backend]
  rfl

theorem produce_tidy (p : Params) (c : Context) (clock : Instant) :
    e.produce p c.tidy clock = e.produce p c clock := by
  unfold produce explain Table.compile
  simp only [condition_tidy]
  rfl

theorem produceGrouped_tidy (p : Params) (c : Context) (clock : Instant) :
    e.produceGrouped p c.tidy clock = e.produceGrouped p c clock := by
  unfold produceGrouped Table.compileGrouped
  simp only [condition_tidy]
  rfl

end Engine

end TableQuery

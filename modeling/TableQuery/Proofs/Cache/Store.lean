import Mathlib.Data.List.Basic
import TableQuery.Cache.Store
import TableQuery.Proofs.Json.Members

/-!
# What a look-up and a put do

A look-up finds an entry that is fresh or stale, drops one that is over, or finds none. A put makes room first
when its key is new and the store is full.

## What is proved

`finds_get`: a look-up does one of these four things.
`makesRoom_put`: a put drops an entry exactly when its key is absent from a full store, and the entry has the
smallest time of all.
`Holds.put`, `Holds.get`: what holds of every value goes on to hold of them if it holds of what is put.
-/

namespace TableQuery

namespace Cache

variable {c : Cache} {key : Bytes}

/-! ## Look-ups -/

/-- What a look-up finds at a time, and the store after it. -/
inductive Finds (c : Cache) (key : Bytes) (now : Instant) : Freshness × Option Json × Cache → Prop
  | fresh (e : Entry) (held : Members.find? key c.entries = some e)
      (fresh : now.nanoseconds < e.freshUntil.nanoseconds) :
      Finds c key now (.fresh, some e.value, { c with counters.hits := c.counters.hits + 1 })
  | stale (e : Entry) (held : Members.find? key c.entries = some e)
      (old : ¬ now.nanoseconds < e.freshUntil.nanoseconds) (stale : now.nanoseconds < e.staleUntil.nanoseconds) :
      Finds c key now (.stale, some e.value, { c with counters.staleHits := c.counters.staleHits + 1 })
  | expired (e : Entry) (held : Members.find? key c.entries = some e)
      (old : ¬ now.nanoseconds < e.freshUntil.nanoseconds)
      (expired : ¬ now.nanoseconds < e.staleUntil.nanoseconds) :
      Finds c key now
        (.miss, none,
          { c with entries := Members.erase key c.entries, counters.misses := c.counters.misses + 1 })
  | absent (absent : Members.find? key c.entries = none) :
      Finds c key now (.miss, none, { c with counters.misses := c.counters.misses + 1 })

theorem finds_get (c : Cache) (key : Bytes) (now : Instant) : Finds c key now (c.get key now) := by
  unfold get
  cases held : Members.find? key c.entries with
  | none => exact .absent held
  | some e =>
    dsimp only
    unfold Entry.freshness
    split_ifs with fresh stale
    · exact .fresh e held fresh
    · exact .stale e held fresh stale
    · exact .expired e held fresh stale

/-! ## Room -/

/-- The walk for the oldest entry from a first one on. -/
theorem exists_oldest (entries : Members Entry) (head : Bytes × Entry) :
    ∃ first ∈ head :: entries, oldestKey? (head :: entries) = some first.1 ∧
      ∀ pair ∈ head :: entries, first.2.storedAt.nanoseconds ≤ pair.2.storedAt.nanoseconds := by
  induction entries generalizing head with
  | nil => exact ⟨head, List.mem_cons_self, rfl, fun pair mem => by simp_all⟩
  | cons next rest ih =>
    by_cases earlier : next.2.storedAt.nanoseconds < head.2.storedAt.nanoseconds
    · obtain ⟨first, mem, walk, least⟩ := ih next
      refine ⟨first, List.mem_cons_of_mem _ mem, ?_, fun pair pairMem => ?_⟩
      · rw [← walk]
        simp [oldestKey?, earlier]
      · rcases List.mem_cons.mp pairMem with rfl | pairMem
        · exact Int64.le_trans (least _ List.mem_cons_self) (Int64.le_of_lt earlier)
        · exact least pair pairMem
    · obtain ⟨first, mem, walk, least⟩ := ih head
      refine ⟨first, ?_, ?_, fun pair pairMem => ?_⟩
      · rcases List.mem_cons.mp mem with rfl | mem
        · exact List.mem_cons_self
        · exact List.mem_cons_of_mem _ (List.mem_cons_of_mem _ mem)
      · rw [← walk]
        simp [oldestKey?, earlier]
      · rcases List.mem_cons.mp pairMem with rfl | pairMem
        · exact least _ List.mem_cons_self
        rcases List.mem_cons.mp pairMem with rfl | pairMem
        · exact Int64.le_trans (least _ List.mem_cons_self) (Int64.not_lt.mp earlier)
        · exact least pair (List.mem_cons_of_mem _ pairMem)

/-- The store that a new value under a key goes into. -/
inductive MakesRoom (c : Cache) (key : Bytes) : Cache → Prop
  | kept (room : Members.has key c.entries = true ∨ c.size < c.capacity) : MakesRoom c key c
  | evicted (victim : Bytes) (e : Entry) (absent : Members.has key c.entries = false) (full : c.capacity ≤ c.size)
      (held : (victim, e) ∈ c.entries)
      (oldest : ∀ pair ∈ c.entries, e.storedAt.nanoseconds ≤ pair.2.storedAt.nanoseconds) :
      MakesRoom c key
        { c with
          entries := Members.erase victim c.entries
          counters.evictions := c.counters.evictions + 1 }

theorem makesRoom_put (c : Cache) (key : Bytes) (value : Json) (ttl staleWindow : Duration) (now : Instant)
    (roomy : 0 < c.capacity) :
    ∃ kept, MakesRoom c key kept ∧
      c.put key value ttl staleWindow now =
        { kept with
          entries := Members.insert key
            { value, storedAt := now, freshUntil := now.after ttl, staleUntil := (now.after ttl).after staleWindow }
            kept.entries } := by
  by_cases full : (!Members.has key c.entries && decide (c.capacity ≤ c.size)) = true
  · refine ⟨c.evictOldest, ?_, ?_⟩
    · rw [Bool.and_eq_true, Bool.not_eq_true', decide_eq_true_eq] at full
      obtain ⟨absent, full⟩ := full
      cases entries : c.entries with
      | nil =>
        rw [size, entries] at full
        exact absurd (Nat.lt_of_lt_of_le roomy full) (Nat.lt_irrefl 0)
      | cons head rest =>
        obtain ⟨⟨victim, e⟩, held, walk, oldest⟩ := exists_oldest rest head
        rw [← entries] at held walk oldest
        rw [evictOldest, walk]
        exact .evicted victim e absent full held oldest
    · rw [put, if_pos full]
  · refine ⟨c, .kept ?_, ?_⟩
    · rw [Bool.and_eq_true, Bool.not_eq_true', decide_eq_true_eq, not_and_or, Bool.not_eq_false, Nat.not_le] at full
      exact full
    · rw [put, if_neg full]

/-- What is put is found while it is fresh. -/
theorem get_put (c : Cache) (key : Bytes) (value : Json) {ttl : Duration} (staleWindow : Duration) (stored : Instant)
    {now : Instant} (fresh : now.nanoseconds < (stored.after ttl).nanoseconds) :
    ((c.put key value ttl staleWindow stored).get key now).1 = .fresh
      ∧ ((c.put key value ttl staleWindow stored).get key now).2.1 = some value := by
  unfold get put
  dsimp only
  rw [Members.find?_insert, if_pos rfl]
  dsimp only
  rw [Entry.freshness, if_pos fresh]
  exact ⟨rfl, rfl⟩

/-! ## Values -/

/-- Something holds of every value and its key. -/
def Holds (P : Bytes → Json → Prop) (c : Cache) : Prop := ∀ pair ∈ c.entries, P pair.1 pair.2.value

namespace Holds

variable {P : Bytes → Json → Prop}

theorem of_subset {c' : Cache} (holds : Holds P c) (subset : c'.entries ⊆ c.entries) : Holds P c' :=
  fun pair mem => holds pair (subset mem)

theorem get (holds : Holds P c) (key : Bytes) (now : Instant) : Holds P (c.get key now).2.2 := by
  have finds := finds_get c key now
  cases finds' : c.get key now
  rw [finds'] at finds
  cases finds with
  | fresh => exact holds
  | stale => exact holds
  | absent => exact holds
  | expired => exact holds.of_subset (Members.erase_sublist key c.entries).subset

/-- What a look-up finds is a value under the key. -/
theorem found (holds : Holds P c) {key : Bytes} {now : Instant} (hit : (c.get key now).1 ≠ .miss) :
    ∃ value, (c.get key now).2.1 = some value ∧ P key value := by
  have finds := finds_get c key now
  cases finds' : c.get key now
  rw [finds'] at finds hit
  cases finds with
  | fresh e held => exact ⟨e.value, rfl, holds _ (Members.mem_of_find? held)⟩
  | stale e held => exact ⟨e.value, rfl, holds _ (Members.mem_of_find? held)⟩
  | absent => exact absurd rfl hit
  | expired => exact absurd rfl hit

theorem evictOldest (holds : Holds P c) : Holds P c.evictOldest := by
  unfold Cache.evictOldest
  split
  · exact holds
  · exact holds.of_subset (Members.erase_sublist _ c.entries).subset

theorem put (holds : Holds P c) {key : Bytes} {value : Json} (new : P key value) (ttl staleWindow : Duration)
    (now : Instant) : Holds P (c.put key value ttl staleWindow now) := by
  have kept : Holds P (if !Members.has key c.entries && c.capacity ≤ c.size then c.evictOldest else c) := by
    split
    · exact holds.evictOldest
    · exact holds
  intro pair mem
  rcases Members.mem_insert mem with rfl | mem
  · exact new
  · exact kept pair mem

theorem mark (holds : Holds P c) (key : Bytes) : Holds P (c.mark key).2 := by
  unfold Cache.mark
  split
  · exact holds
  · exact holds

theorem unmark (holds : Holds P c) (key : Bytes) : Holds P (c.unmark key) := holds

theorem invalidate (holds : Holds P c) (key : Bytes) : Holds P (c.invalidate key) :=
  holds.of_subset (Members.erase_sublist key c.entries).subset

theorem clear (c : Cache) : Holds P c.clear := fun _ mem => nomatch mem

theorem ofCapacity (capacity : Nat) : Holds P (Cache.ofCapacity capacity) := fun _ mem => nomatch mem

end Holds

end Cache

end TableQuery

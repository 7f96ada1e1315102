import Mathlib
import TableQuery.Proofs.Cache.Store

/-!
# The response cache against its reference

The reference remembers the last put of each key and which keys are present; a look-up reads the two. The store
keeps a list of entries with their times worked out when they are put, and picks the entry to drop by a walk
over that list. Of several entries put at one smallest time the reference may drop any.

A store counts nanoseconds in 64 bits, and a time beyond them wraps round. So the reference is given the clock
that shows its times: `word` wraps, `id` is exact. The counters of look-ups have 64 bits too.

## What is proved

`refines_reference`: whatever the calls and whenever they come, a store answers as the reference on the wrapped
clock does and holds what it holds. If the times of all puts fit in 64 bits, that is the reference on the exact
clock. The store never holds more than its capacity, and every look-up is counted once.
-/

namespace TableQuery

namespace Cache

/-! ## Calls -/

/-- A call of a store. The times of a put are in milliseconds. -/
inductive Op where
  | get (key : Bytes)
  | put (key : Bytes) (value : Json) (ttl staleWindow : Int64)
  | invalidate (key : Bytes)
  | clear
  | mark (key : Bytes)
  | unmark (key : Bytes)

/-- What a call answers. -/
inductive Answer where
  | found (finding : Freshness) (value : Option Json)
  | marked (won : Bool)
  | done

/-- Whether a call is a look-up. -/
def Op.isGet : Op → Bool
  | .get _ => true
  | _ => false

/-- The answer to a call at a time, and the store after it. -/
def perform (c : Cache) (now : Instant) : Op → Answer × Cache
  | .get key =>
    let (finding, value, c) := c.get key now
    (.found finding value, c)
  | .put key value ttl staleWindow =>
    (.done, c.put key value (.ofMilliseconds ttl) (.ofMilliseconds staleWindow) now)
  | .invalidate key => (.done, c.invalidate key)
  | .clear => (.done, c.clear)
  | .mark key =>
    let (won, c) := c.mark key
    (.marked won, c)
  | .unmark key => (.done, c.unmark key)

/-- The answers to a list of calls, each at its time, and the store after them. -/
def run (c : Cache) : List (Op × Instant) → List Answer × Cache
  | [] => ([], c)
  | (op, now) :: rest =>
    let (answer, c) := c.perform now op
    let (answers, c) := c.run rest
    (answer :: answers, c)

/-! ## The reference -/

/-- A put of a value: when it was made, in nanoseconds, and for how many milliseconds the value is fresh and then
stale. -/
structure Put where
  value : Json
  time : Int
  ttl : Int
  staleWindow : Int

/-- When the value of a put stops being fresh. -/
def Put.freshUntil (p : Put) : Int := p.time + p.ttl * 1000000

/-- When the value of a put stops being handed out. -/
def Put.staleUntil (p : Put) : Int := p.freshUntil + p.staleWindow * 1000000

/-- The last put of each key, the keys that are present and the keys that are marked. -/
structure Reference where
  latest : Bytes → Option Put
  present : Finset Bytes
  marked : Finset Bytes

namespace Reference

/-- Nothing was put or marked. -/
def empty : Reference := { latest := fun _ => none, present := ∅, marked := ∅ }

/-- The reference after a put, which leaves some of the keys present. -/
def putKeeping (s : Reference) (key : Bytes) (p : Put) (kept : Finset Bytes) : Reference :=
  { s with latest := Function.update s.latest key (some p), present := insert key kept }

/-- What one call may do to the reference with room for a number of keys, and what it answers. -/
inductive Step (clock : Int → Int) (room : Nat) (now : Int) : Reference → Op → Answer → Reference → Prop
  | fresh {s : Reference} {key : Bytes} {p : Put} (present : key ∈ s.present) (put : s.latest key = some p)
      (fresh : now < clock p.freshUntil) : Step clock room now s (.get key) (.found .fresh (some p.value)) s
  | stale {s : Reference} {key : Bytes} {p : Put} (present : key ∈ s.present) (put : s.latest key = some p)
      (old : clock p.freshUntil ≤ now) (stale : now < clock p.staleUntil) :
      Step clock room now s (.get key) (.found .stale (some p.value)) s
  | miss {s : Reference} {key : Bytes}
      (gone : key ∈ s.present →
        ∀ p, s.latest key = some p → clock p.freshUntil ≤ now ∧ clock p.staleUntil ≤ now) :
      Step clock room now s (.get key) (.found .miss none) { s with present := s.present.erase key }
  | put {s : Reference} {key : Bytes} {value : Json} {ttl staleWindow : Int64}
      (fits : key ∈ s.present ∨ s.present.card < room) :
      Step clock room now s (.put key value ttl staleWindow) .done
        (s.putKeeping key ⟨value, now, ttl.toInt, staleWindow.toInt⟩ s.present)
  | replace {s : Reference} {key victim : Bytes} {value : Json} {ttl staleWindow : Int64}
      (absent : key ∉ s.present) (full : room ≤ s.present.card) (present : victim ∈ s.present)
      (oldest : ∀ p, s.latest victim = some p →
        ∀ other ∈ s.present, ∀ q, s.latest other = some q → p.time ≤ q.time) :
      Step clock room now s (.put key value ttl staleWindow) .done
        (s.putKeeping key ⟨value, now, ttl.toInt, staleWindow.toInt⟩ (s.present.erase victim))
  | invalidate {s : Reference} {key : Bytes} :
      Step clock room now s (.invalidate key) .done { s with present := s.present.erase key }
  | clear {s : Reference} : Step clock room now s .clear .done { s with present := ∅ }
  | mark {s : Reference} {key : Bytes} :
      Step clock room now s (.mark key) (.marked (key ∉ s.marked)) { s with marked := insert key s.marked }
  | unmark {s : Reference} {key : Bytes} :
      Step clock room now s (.unmark key) .done { s with marked := s.marked.erase key }

/-- What a list of calls may do to the reference, and what they answer. -/
inductive Run (clock : Int → Int) (room : Nat) :
    Reference → List (Op × Instant) → List Answer → Reference → Prop
  | nil {s : Reference} : Run clock room s [] [] s
  | cons {s next last : Reference} {op : Op} {now : Instant} {rest : List (Op × Instant)} {answer : Answer}
      {answers : List Answer} (step : Step clock room now.nanoseconds.toInt s op answer next)
      (run : Run clock room next rest answers last) :
      Run clock room s ((op, now) :: rest) (answer :: answers) last

end Reference

/-! ## Times in 64 bits -/

/-- What a clock of 64 bits shows for a time. -/
def word (time : Int) : Int := time.bmod (2 ^ 64)

/-- The times of a put are not negative, and the last of them fits in 64 bits. Other calls work out no time. -/
def Op.Fits (now : Instant) : Op → Prop
  | .put _ _ ttl staleWindow =>
    0 ≤ ttl.toInt ∧ 0 ≤ staleWindow.toInt ∧
      now.nanoseconds.toInt + (ttl.toInt + staleWindow.toInt) * 1000000 < 2 ^ 63
  | _ => True

/-- A clock of 64 bits shows the times of a put as they are. -/
def Put.Shown (p : Put) : Prop := word p.freshUntil = p.freshUntil ∧ word p.staleUntil = p.staleUntil

theorem word_of_range {time : Int} (low : -2 ^ 63 ≤ time) (high : time < 2 ^ 63) : word time = time :=
  Int.bmod_eq_of_le (by omega) (by omega)

theorem Op.Fits.shown {key : Bytes} {value : Json} {ttl staleWindow : Int64} {now : Instant}
    (fits : (Op.put key value ttl staleWindow).Fits now) :
    Put.Shown ⟨value, now.nanoseconds.toInt, ttl.toInt, staleWindow.toInt⟩ := by
  obtain ⟨ttl_nonneg, staleWindow_nonneg, high⟩ := fits
  have low := now.nanoseconds.le_toInt
  constructor <;> refine word_of_range ?_ ?_ <;> simp only [Put.staleUntil, Put.freshUntil] <;> omega

/-- Every put that the reference remembers is shown as it is. -/
def Reference.Exact (s : Reference) : Prop := ∀ key p, s.latest key = some p → p.Shown

namespace Reference

variable {room : Nat} {s next last : Reference} {op : Op} {answer : Answer}

theorem latest_putKeeping {key other : Bytes} {p : Put} {kept : Finset Bytes} :
    (s.putKeeping key p kept).latest other = if other = key then some p else s.latest other :=
  Function.update_apply ..

theorem Exact.putKeeping {key : Bytes} {p : Put} {kept : Finset Bytes} (exact : s.Exact) (shown : p.Shown) :
    (s.putKeeping key p kept).Exact := by
  intro other q latest
  rw [latest_putKeeping] at latest
  split_ifs at latest
  · cases latest
    exact shown
  · exact exact other q latest

theorem Step.exact {now : Instant} (step : Step word room now.nanoseconds.toInt s op answer next)
    (exact : s.Exact) (fits : op.Fits now) : Step id room now.nanoseconds.toInt s op answer next ∧ next.Exact := by
  cases step with
  | fresh present put fresh => exact ⟨.fresh present put ((exact _ _ put).1 ▸ fresh), exact⟩
  | stale present put old stale =>
    obtain ⟨freshShown, staleShown⟩ := exact _ _ put
    exact ⟨.stale present put (freshShown ▸ old) (staleShown ▸ stale), exact⟩
  | miss gone =>
    refine ⟨.miss fun present p put => ?_, exact⟩
    obtain ⟨freshShown, staleShown⟩ := exact _ _ put
    obtain ⟨old, expired⟩ := gone present p put
    exact ⟨freshShown ▸ old, staleShown ▸ expired⟩
  | put room => exact ⟨.put room, exact.putKeeping fits.shown⟩
  | replace absent full present oldest =>
    exact ⟨.replace absent full present oldest, exact.putKeeping fits.shown⟩
  | invalidate => exact ⟨.invalidate, exact⟩
  | clear => exact ⟨.clear, exact⟩
  | mark => exact ⟨.mark, exact⟩
  | unmark => exact ⟨.unmark, exact⟩

/-- While the times of all puts fit, the wrapped clock and the exact one allow the same runs. -/
theorem Run.exact {steps : List (Op × Instant)} {answers : List Answer} (run : Run word room s steps answers last)
    (exact : s.Exact) (fits : ∀ step ∈ steps, step.1.Fits step.2) : Run id room s steps answers last := by
  induction run with
  | nil => exact .nil
  | cons step run ih =>
    obtain ⟨step, exact⟩ := step.exact exact (fits _ List.mem_cons_self)
    exact .cons step (ih exact fun s mem => fits s (List.mem_cons_of_mem _ mem))

end Reference

/-! ## The store follows the reference -/

/-- An entry is the record of a put. -/
structure Entry.Records (e : Entry) (p : Put) : Prop where
  value : e.value = p.value
  storedAt : e.storedAt.nanoseconds.toInt = p.time
  freshUntil : e.freshUntil.nanoseconds.toInt = word p.freshUntil
  staleUntil : e.staleUntil.nanoseconds.toInt = word p.staleUntil

/-- A store holds the keys that are present, each with its last put, within its capacity. -/
structure Follows (c : Cache) (s : Reference) : Prop where
  sorted : Members.Sorted c.entries
  present : s.present = (Members.keys c.entries).toFinset
  latest : ∀ key e, Members.find? key c.entries = some e → ∃ p, s.latest key = some p ∧ e.Records p
  marked : s.marked = c.revalidating.toFinset
  room : c.size ≤ c.capacity

theorem follows_empty (entries : Nat) : Follows (ofCapacity entries) .empty where
  sorted := trivial
  present := rfl
  latest := nofun
  marked := rfl
  room := Nat.zero_le _

namespace Follows

variable {c : Cache} {s : Reference} {key : Bytes}

theorem card_present (follows : Follows c s) : s.present.card = c.size := by
  rw [follows.present, List.toFinset_card_of_nodup follows.sorted.nodup, Members.keys, List.length_map, size]

theorem mem_present (follows : Follows c s) : key ∈ s.present ↔ Members.has key c.entries = true := by
  rw [follows.present, List.mem_toFinset, Members.mem_keys_iff]

theorem present_of_find? (follows : Follows c s) {e : Entry} (found : Members.find? key c.entries = some e) :
    key ∈ s.present := by
  rw [follows.mem_present, Members.has, found]
  rfl

/-- Dropping a key on both sides. -/
theorem erase (follows : Follows c s) {counters : Counters} :
    Follows { c with entries := Members.erase key c.entries, counters }
      { s with present := s.present.erase key } where
  sorted := follows.sorted.erase
  present := by
    ext other
    rw [Finset.mem_erase, follows.present, List.mem_toFinset, List.mem_toFinset,
      Members.mem_keys_erase follows.sorted]
  latest := by
    intro other e found
    rw [Members.find?_erase follows.sorted] at found
    split_ifs at found
    exact follows.latest other e found
  marked := follows.marked
  room := le_trans (Members.erase_sublist key c.entries).length_le follows.room

/-- Putting an entry under a key that is present or has room. -/
theorem insert (follows : Follows c s) {e : Entry} {p : Put} (records : e.Records p)
    (fits : key ∈ s.present ∨ s.present.card < c.capacity) :
    Follows { c with entries := Members.insert key e c.entries } (s.putKeeping key p s.present) := by
  have sorted : Members.Sorted (Members.insert key e c.entries) := follows.sorted.insert
  have present : Insert.insert key s.present = (Members.keys (Members.insert key e c.entries)).toFinset := by
    ext other
    rw [Finset.mem_insert, follows.present, List.mem_toFinset, List.mem_toFinset, Members.mem_keys_insert]
  refine ⟨sorted, present, fun other f found => ?_, follows.marked, ?_⟩
  · rw [Members.find?_insert] at found
    rw [Reference.latest_putKeeping]
    split_ifs at found with same
    · cases found
      exact ⟨p, if_pos same.symm, records⟩
    · rw [if_neg (Ne.symm same)]
      exact follows.latest other f found
  · calc (Members.insert key e c.entries).length
      _ = (Insert.insert key s.present).card := by
        rw [present, List.toFinset_card_of_nodup sorted.nodup, Members.keys, List.length_map]
      _ ≤ c.capacity := by
        rcases fits with held | room
        · rw [Finset.insert_eq_of_mem held, follows.card_present]
          exact follows.room
        · exact le_trans (Finset.card_insert_le key s.present) room

end Follows

/-! ## One call and a run -/

theorem records_put (now : Instant) (value : Json) (ttl staleWindow : Int64) :
    Entry.Records
      { value, storedAt := now, freshUntil := now.after (.ofMilliseconds ttl)
        staleUntil := (now.after (.ofMilliseconds ttl)).after (.ofMilliseconds staleWindow) }
      ⟨value, now.nanoseconds.toInt, ttl.toInt, staleWindow.toInt⟩ where
  value := rfl
  storedAt := rfl
  freshUntil := by
    simp [Instant.after, Duration.ofMilliseconds, word, Put.freshUntil, Int64.toInt_add, Int64.toInt_mul]
  staleUntil := by
    simp [Instant.after, Duration.ofMilliseconds, word, Put.freshUntil, Put.staleUntil, Int64.toInt_add,
      Int64.toInt_mul]

namespace Follows

variable {c : Cache} {s : Reference} {key : Bytes} {now : Instant}

theorem counted (follows : Follows c s) {counters : Counters} : Follows { c with counters } s :=
  { follows with }

theorem get (follows : Follows c s) :
    ∃ next, Reference.Step word c.capacity now.nanoseconds.toInt s (.get key)
        (.found (c.get key now).1 (c.get key now).2.1) next ∧ Follows (c.get key now).2.2 next := by
  have finds := finds_get c key now
  generalize c.get key now = looked at finds ⊢
  cases finds with
  | fresh e held fresh =>
    obtain ⟨p, latest, records⟩ := follows.latest key e held
    rw [Int64.lt_iff_toInt_lt, records.freshUntil] at fresh
    rw [records.value]
    exact ⟨s, .fresh (follows.present_of_find? held) latest fresh, follows.counted⟩
  | stale e held old stale =>
    obtain ⟨p, latest, records⟩ := follows.latest key e held
    rw [Int64.lt_iff_toInt_lt, records.freshUntil, not_lt] at old
    rw [Int64.lt_iff_toInt_lt, records.staleUntil] at stale
    rw [records.value]
    exact ⟨s, .stale (follows.present_of_find? held) latest old stale, follows.counted⟩
  | expired e held old expired =>
    obtain ⟨p, latest, records⟩ := follows.latest key e held
    rw [Int64.lt_iff_toInt_lt, records.freshUntil, not_lt] at old
    rw [Int64.lt_iff_toInt_lt, records.staleUntil, not_lt] at expired
    refine ⟨_, .miss fun _ q latest' => ?_, follows.erase⟩
    rw [latest, Option.some.injEq] at latest'
    exact latest' ▸ ⟨old, expired⟩
  | absent absent =>
    have gone : key ∉ s.present := by
      rw [follows.mem_present, Members.has, absent]
      exact Bool.false_ne_true
    have same : { s with present := s.present.erase key } = s := by rw [Finset.erase_eq_of_notMem gone]
    refine ⟨_, .miss fun present => absurd present gone, ?_⟩
    rw [same]
    exact follows.counted

theorem put (follows : Follows c s) (roomy : 0 < c.capacity) (value : Json) (ttl staleWindow : Int64) :
    ∃ next, Reference.Step word c.capacity now.nanoseconds.toInt s (.put key value ttl staleWindow) .done next ∧
      Follows (c.put key value (.ofMilliseconds ttl) (.ofMilliseconds staleWindow) now) next := by
  obtain ⟨kept, makesRoom, put_eq⟩ :=
    makesRoom_put c key value (.ofMilliseconds ttl) (.ofMilliseconds staleWindow) now roomy
  rw [put_eq]
  have records := records_put now value ttl staleWindow
  cases makesRoom with
  | kept room =>
    rw [← follows.mem_present, ← follows.card_present] at room
    exact ⟨_, .put room, follows.insert records room⟩
  | evicted victim e absent full held oldest =>
    have found := Members.find?_of_mem follows.sorted held
    have present := follows.present_of_find? found
    rw [← follows.card_present] at full
    refine ⟨_, .replace ?_ full present ?_, follows.erase.insert records (.inr ?_)⟩
    · rw [follows.mem_present, absent]
      exact Bool.false_ne_true
    · intro p latest other mem q otherLatest
      obtain ⟨p', latest', recordsP⟩ := follows.latest victim e found
      rw [follows.mem_present, Members.has, Option.isSome_iff_exists] at mem
      obtain ⟨f, otherFound⟩ := mem
      obtain ⟨q', otherLatest', recordsQ⟩ := follows.latest other f otherFound
      rw [latest, Option.some.injEq] at latest'
      rw [otherLatest, Option.some.injEq] at otherLatest'
      rw [latest', otherLatest', ← recordsP.storedAt, ← recordsQ.storedAt, ← Int64.le_iff_toInt_le]
      exact oldest (other, f) (Members.mem_of_find? otherFound)
    · exact lt_of_lt_of_le (Finset.card_erase_lt_of_mem present) (follows.card_present.trans_le follows.room)

theorem mark (follows : Follows c s) :
    ∃ next, Reference.Step word c.capacity now.nanoseconds.toInt s (.mark key) (.marked (c.mark key).1) next ∧
      Follows (c.mark key).2 next := by
  have step : Reference.Step word c.capacity now.nanoseconds.toInt s (.mark key) _ _ := .mark
  unfold Cache.mark
  split_ifs with marked
  · have mem : key ∈ s.marked := by rwa [follows.marked, List.mem_toFinset, ← List.contains_iff_mem]
    rw [Finset.insert_eq_of_mem mem, decide_eq_false (not_not.mpr mem)] at step
    exact ⟨s, step, follows⟩
  · have not_mem : key ∉ s.marked := by rwa [follows.marked, List.mem_toFinset, ← List.contains_iff_mem]
    rw [decide_eq_true not_mem] at step
    exact ⟨_, step, { follows with marked := by rw [follows.marked, List.toFinset_cons] }⟩

theorem unmark (follows : Follows c s) : Follows (c.unmark key) { s with marked := s.marked.erase key } :=
  { follows with
    marked := by
      ext other
      simp [Cache.unmark, follows.marked, and_comm] }

theorem clear (follows : Follows c s) : Follows c.clear { s with present := ∅ } where
  sorted := trivial
  present := rfl
  latest := nofun
  marked := follows.marked
  room := Nat.zero_le _

/-- One call. -/
theorem perform (follows : Follows c s) (roomy : 0 < c.capacity) (op : Op) :
    ∃ next, Reference.Step word c.capacity now.nanoseconds.toInt s op (c.perform now op).1 next ∧
      Follows (c.perform now op).2 next := by
  cases op with
  | get key => exact follows.get
  | put key value ttl staleWindow => exact follows.put roomy value ttl staleWindow
  | invalidate key => exact ⟨_, .invalidate, follows.erase⟩
  | clear => exact ⟨_, .clear, follows.clear⟩
  | mark key => exact follows.mark
  | unmark key => exact ⟨_, .unmark, follows.unmark⟩

end Follows

/-! ## Counted look-ups -/

/-- The look-ups that were counted, on the 64 bits of a counter. -/
def Counters.lookUps (k : Counters) : UInt64 := k.hits + k.staleHits + k.misses

/-- The counters show numbers that a number of look-ups is made up of. -/
def Counters.Shows (k : Counters) (n : Nat) : Prop :=
  ∃ hits stale misses, k.hits = .ofNat hits ∧ k.staleHits = .ofNat stale ∧ k.misses = .ofNat misses
    ∧ hits + stale + misses = n

namespace Counters.Shows

variable {k : Counters} {n : Nat}

theorem lookUps (shows : k.Shows n) : k.lookUps = .ofNat n := by
  obtain ⟨hits, stale, misses, fresh, old, none, rfl⟩ := shows
  rw [Counters.lookUps, fresh, old, none, UInt64.ofNat_add, UInt64.ofNat_add]

/-- Up to the greatest number that a counter can show, the counters are exact. -/
theorem exact (shows : k.Shows n) (few : n < 2 ^ 64) : k.hits.toNat + k.staleHits.toNat + k.misses.toNat = n := by
  obtain ⟨hits, stale, misses, fresh, old, none, rfl⟩ := shows
  have shown {m : Nat} (small : m < 2 ^ 64) : (UInt64.ofNat m).toNat = m := UInt64.toNat_ofNat_of_lt' small
  rw [fresh, old, none, shown (by omega), shown (by omega), shown (by omega)]

theorem hit (shows : k.Shows n) : { k with hits := k.hits + 1 }.Shows (n + 1) := by
  obtain ⟨hits, stale, misses, fresh, old, none, rfl⟩ := shows
  exact ⟨hits + 1, stale, misses, by rw [fresh, UInt64.ofNat_add]; rfl, old, none, by omega⟩

theorem staleHit (shows : k.Shows n) : { k with staleHits := k.staleHits + 1 }.Shows (n + 1) := by
  obtain ⟨hits, stale, misses, fresh, old, none, rfl⟩ := shows
  exact ⟨hits, stale + 1, misses, fresh, by rw [old, UInt64.ofNat_add]; rfl, none, by omega⟩

theorem miss (shows : k.Shows n) : { k with misses := k.misses + 1 }.Shows (n + 1) := by
  obtain ⟨hits, stale, misses, fresh, old, none, rfl⟩ := shows
  exact ⟨hits, stale, misses + 1, fresh, old, by rw [none, UInt64.ofNat_add]; rfl, by omega⟩

end Counters.Shows

/-- A call leaves the capacity and counts itself if it is a look-up. -/
theorem counted_perform {c : Cache} {n : Nat} (shows : c.counters.Shows n) (roomy : 0 < c.capacity) (now : Instant)
    (op : Op) : (c.perform now op).2.capacity = c.capacity ∧
      (c.perform now op).2.counters.Shows (n + if op.isGet then 1 else 0) := by
  cases op with
  | get key =>
    have finds := finds_get c key now
    change (c.get key now).2.2.capacity = c.capacity ∧ (c.get key now).2.2.counters.Shows (n + 1)
    generalize c.get key now = looked at finds ⊢
    cases finds with
    | fresh => exact ⟨rfl, shows.hit⟩
    | stale => exact ⟨rfl, shows.staleHit⟩
    | expired => exact ⟨rfl, shows.miss⟩
    | absent => exact ⟨rfl, shows.miss⟩
  | put key value ttl staleWindow =>
    obtain ⟨kept, makesRoom, put_eq⟩ :=
      makesRoom_put c key value (.ofMilliseconds ttl) (.ofMilliseconds staleWindow) now roomy
    change (c.put key value _ _ now).capacity = c.capacity ∧ (c.put key value _ _ now).counters.Shows n
    rw [put_eq]
    cases makesRoom <;> exact ⟨rfl, shows⟩
  | mark key =>
    change (c.mark key).2.capacity = c.capacity ∧ (c.mark key).2.counters.Shows n
    unfold mark
    split_ifs <;> exact ⟨rfl, shows⟩
  | _ => exact ⟨rfl, shows⟩

/-- A run, by induction on its calls: the reference makes the run too, and the store follows it to the end. -/
theorem Follows.run {c : Cache} {s : Reference} {n : Nat} (follows : Follows c s) (roomy : 0 < c.capacity)
    (shows : c.counters.Shows n) (steps : List (Op × Instant)) :
    ∃ last, Reference.Run word c.capacity s steps (c.run steps).1 last ∧ Follows (c.run steps).2 last ∧
      (c.run steps).2.capacity = c.capacity ∧
      (c.run steps).2.counters.Shows (n + steps.countP fun step => step.1.isGet) := by
  induction steps generalizing c s n with
  | nil => exact ⟨s, .nil, follows, rfl, shows⟩
  | cons step rest ih =>
    obtain ⟨op, now⟩ := step
    obtain ⟨next, step, followsNext⟩ := follows.perform roomy op
    obtain ⟨capacity, showsNext⟩ := counted_perform shows roomy now op
    obtain ⟨last, run, followsLast, capacityLast, showsLast⟩ := ih followsNext (capacity ▸ roomy) showsNext
    refine ⟨last, .cons step (capacity ▸ run), followsLast, capacityLast.trans capacity, ?_⟩
    rw [List.countP_cons, Nat.add_comm (List.countP _ rest), ← Nat.add_assoc]
    exact showsLast

/-- A store of any size answers every list of calls, at whatever times, as the reference does on a clock of 64
bits, and as it does on the exact clock if the times of all puts fit. Its counters add up to the look-ups, as far as 64
bits can show. -/
theorem refines_reference (entries : Nat) (steps : List (Op × Instant)) :
    ∃ last : Reference,
      Reference.Run word (max 1 entries) .empty steps ((ofCapacity entries).run steps).1 last ∧
      ((∀ step ∈ steps, step.1.Fits step.2) →
        Reference.Run id (max 1 entries) .empty steps ((ofCapacity entries).run steps).1 last) ∧
      Follows ((ofCapacity entries).run steps).2 last ∧
      ((ofCapacity entries).run steps).2.size = last.present.card ∧
      ((ofCapacity entries).run steps).2.size ≤ max 1 entries ∧
      let gets := steps.countP fun step => step.1.isGet
      let counters := ((ofCapacity entries).run steps).2.counters
      counters.lookUps = .ofNat gets ∧
        (gets < 2 ^ 64 → counters.hits.toNat + counters.staleHits.toNat + counters.misses.toNat = gets) := by
  have none : (ofCapacity entries).counters.Shows 0 := ⟨0, 0, 0, rfl, rfl, rfl, rfl⟩
  obtain ⟨last, run, follows, capacity, shows⟩ :=
    (follows_empty entries).run (Nat.lt_of_lt_of_le Nat.one_pos (Nat.le_max_left ..)) none steps
  rw [Nat.zero_add] at shows
  refine ⟨last, run, run.exact nofun, follows, follows.card_present.symm, ?_, shows.lookUps, shows.exact⟩
  exact follows.room.trans_eq capacity

/-- A time to live beyond 64 bits wraps round, and the value is over at once. -/
example : ((ofCapacity 5).run [(.put "k" .null 9223372036855 0, ⟨0⟩), (.get "k", ⟨0⟩)]).1
    = [.done, .found .miss none] := rfl

end Cache

end TableQuery

import TableQuery.Calendar.Instant
import TableQuery.Json.Basic

/-!
# The response cache

A store of values by key. An entry is fresh for a time after it was put, then for a further time stale,
when it is still handed out, and then gone: the look-up that finds it so drops it. A full store makes
room for a new key by dropping the entry that was put first.

Beside the entries the store keeps the marks of keys whose values are being made anew. A mark is owned
by the caller who set it; marks and entries do not affect each other.

Every operation takes the time as an argument.
-/

namespace TableQuery

/-- What a look-up found. -/
inductive Freshness where
  | miss
  | fresh
  | stale
deriving Repr, DecidableEq

namespace Freshness

/-- The name of a finding. -/
def name : Freshness → Bytes
  | miss => "miss"
  | fresh => "fresh"
  | stale => "stale"

end Freshness

namespace Cache

/-- A stored value with its times. -/
structure Entry where
  value : Json
  storedAt : Instant
  /-- When the value stops being fresh. -/
  freshUntil : Instant
  /-- When it stops being handed out. -/
  staleUntil : Instant
deriving Repr

/-- How often look-ups found what, and how many entries were dropped for room. A counter has 64 bits and wraps round. -/
structure Counters where
  hits : UInt64 := 0
  staleHits : UInt64 := 0
  misses : UInt64 := 0
  evictions : UInt64 := 0
deriving Repr, DecidableEq

end Cache

/-- A store of responses. -/
structure Cache where
  /-- The greatest number of entries. -/
  capacity : Nat
  entries : Members Cache.Entry := []
  /-- The keys whose values are being made anew. -/
  revalidating : List Bytes := []
  counters : Cache.Counters := {}
deriving Repr

namespace Cache

/-- An empty store; it has room for one entry at least. -/
def ofCapacity (entries : Nat) : Cache := { capacity := max 1 entries }

/-- The number of entries. -/
def size (c : Cache) : Nat := c.entries.length

/-- What an entry is at a time. -/
def Entry.freshness (e : Entry) (now : Instant) : Freshness :=
  if now.nanoseconds < e.freshUntil.nanoseconds then .fresh
  else if now.nanoseconds < e.staleUntil.nanoseconds then .stale
  else .miss

/-- Looks a key up: what was found, the value if there is one, and the store after it. -/
def get (c : Cache) (key : Bytes) (now : Instant) : Freshness × Option Json × Cache :=
  let missed := { c.counters with misses := c.counters.misses + 1 }
  match Members.find? key c.entries with
  | none => (.miss, none, { c with counters := missed })
  | some e =>
    match e.freshness now with
    | .fresh =>
      (.fresh, some e.value, { c with counters.hits := c.counters.hits + 1 })
    | .stale =>
      (.stale, some e.value, { c with counters.staleHits := c.counters.staleHits + 1 })
    | .miss => (.miss, none, { c with entries := Members.erase key c.entries, counters := missed })

/-- The key of the entry that was put first. -/
def oldestKey? (entries : Members Entry) : Option Bytes :=
  (entries.foldl (fun oldest (key, e) =>
    match oldest with
    | some (k, o) =>
      if e.storedAt.nanoseconds < o.storedAt.nanoseconds then some (key, e) else some (k, o)
    | none => some (key, e)) none).map Prod.fst

/-- Drops the entry that was put first. -/
def evictOldest (c : Cache) : Cache :=
  match oldestKey? c.entries with
  | none => c
  | some key =>
    { c with
      entries := Members.erase key c.entries
      counters.evictions := c.counters.evictions + 1 }

/-- Puts a value under a key, fresh for a time and stale for a further one. -/
def put (c : Cache) (key : Bytes) (value : Json) (ttl staleWindow : Duration) (now : Instant) : Cache :=
  let c := if !Members.has key c.entries && c.capacity ≤ c.size then c.evictOldest else c
  let freshUntil := now.after ttl
  let entry : Entry :=
    { value, storedAt := now, freshUntil, staleUntil := freshUntil.after staleWindow }
  { c with entries := Members.insert key entry c.entries }

/-- Marks a key, and says whether it was unmarked before. -/
def mark (c : Cache) (key : Bytes) : Bool × Cache :=
  if c.revalidating.contains key then (false, c)
  else (true, { c with revalidating := key :: c.revalidating })

/-- Takes the mark off a key. -/
def unmark (c : Cache) (key : Bytes) : Cache :=
  { c with revalidating := c.revalidating.filter fun k => k != key }

/-- Whether a key is marked. -/
def isMarked (c : Cache) (key : Bytes) : Bool := c.revalidating.contains key

/-- Drops the entry of a key. -/
def invalidate (c : Cache) (key : Bytes) : Cache := { c with entries := Members.erase key c.entries }

/-- Drops all entries. -/
def clear (c : Cache) : Cache := { c with entries := [] }

/-- The counters and the number of entries. -/
def statsToJson (c : Cache) : Json :=
  .record
    [("hits", .int c.counters.hits.toNat), ("stale_hits", .int c.counters.staleHits.toNat),
      ("misses", .int c.counters.misses.toNat), ("evictions", .int c.counters.evictions.toNat),
      ("entries", .int c.size)]

end Cache

end TableQuery

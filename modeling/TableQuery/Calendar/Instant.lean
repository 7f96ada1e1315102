import TableQuery.Calendar.Date

/-!
# Instants

Points in time and the distances between them, in nanoseconds. Callers give and read milliseconds. The
time of a request is counted from the start of 1970.
-/

namespace TableQuery

/-- A distance in time, in nanoseconds. -/
structure Duration where
  nanoseconds : Int64
deriving Repr, DecidableEq

/-- A point in time, in nanoseconds from a fixed origin. -/
structure Instant where
  nanoseconds : Int64
deriving Repr, DecidableEq

namespace Duration

/-- The distance of a number of milliseconds. -/
def ofMilliseconds (ms : Int64) : Duration := ⟨ms * 1000000⟩

/-- The distance of a number of seconds. -/
def ofSeconds (s : Int32) : Duration := ⟨s.toInt64 * 1000000000⟩

end Duration

namespace Instant

/-- The instant at a number of milliseconds. -/
def ofMilliseconds (ms : Int64) : Instant := ⟨ms * 1000000⟩

/-- The whole milliseconds of an instant, toward zero. -/
def toMilliseconds (t : Instant) : Int64 := t.nanoseconds / 1000000

/-- The instant a distance later. -/
def after (t : Instant) (d : Duration) : Instant := ⟨t.nanoseconds + d.nanoseconds⟩

/-- The nanoseconds of a day. -/
def perDay : Int := 86400000000000

/-- The day of an instant in UTC, counted from the start of 1970. -/
def day (t : Instant) : Day := t.nanoseconds.toInt / perDay

end Instant

end TableQuery

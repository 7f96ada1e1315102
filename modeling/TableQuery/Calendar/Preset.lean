import TableQuery.Calendar.Date
import TableQuery.Json.Read

/-!
# Date presets

The named ranges of days that a filter may give in place of a date. A range is half open and in UTC:
the ranges that reach up to now end where tomorrow begins, and the ones that name a past unit of the
calendar are that whole unit.
-/

namespace TableQuery

/-- A named range of days. -/
inductive DatePreset where
  | today | yesterday
  | last7Days | last30Days | last90Days
  | thisWeek | lastWeek
  | thisMonth | lastMonth
  | thisQuarter | lastQuarter
  | thisYear | lastYear
  /-- A range that the caller gives by other means. -/
  | custom
deriving Repr, DecidableEq

/-- The days from `start` on and before `stop`. -/
structure DateRange where
  start : Day
  stop : Day
deriving Repr, DecidableEq

namespace DatePreset

/-- Every preset. -/
def all : List DatePreset :=
  [today, yesterday, last7Days, last30Days, last90Days, thisWeek, lastWeek, thisMonth, lastMonth,
    thisQuarter, lastQuarter, thisYear, lastYear, custom]

/-- The name of a preset. -/
def name : DatePreset → Bytes
  | today => "today"
  | yesterday => "yesterday"
  | last7Days => "last7days"
  | last30Days => "last30days"
  | last90Days => "last90days"
  | thisWeek => "thisWeek"
  | lastWeek => "lastWeek"
  | thisMonth => "thisMonth"
  | lastMonth => "lastMonth"
  | thisQuarter => "thisQuarter"
  | lastQuarter => "lastQuarter"
  | thisYear => "thisYear"
  | lastYear => "lastYear"
  | custom => "custom"

/-- The preset of a name; capitals count. -/
def ofName? (name : Bytes) : Option DatePreset := all.find? fun p => p.name == name

/-- The preset that a filter value names. -/
def ofJson? : Json → Option DatePreset
  | .str s => ofName? s
  | _ => none

/-- The range of a preset on a given day. -/
def rangeOn (day : Day) : DatePreset → Option DateRange :=
  let tomorrow := day + 1
  let week := day.startOfWeek
  let month := day.monthOf
  let quarter := 3 * (month / 3)
  let year := 12 * (month / 12)
  fun
  | today => some ⟨day, tomorrow⟩
  | yesterday => some ⟨day - 1, day⟩
  | last7Days => some ⟨day - 7, tomorrow⟩
  | last30Days => some ⟨day - 30, tomorrow⟩
  | last90Days => some ⟨day - 90, tomorrow⟩
  | thisWeek => some ⟨week, tomorrow⟩
  | lastWeek => some ⟨week - 7, week⟩
  | thisMonth => some ⟨Day.firstOfMonth month, tomorrow⟩
  | lastMonth => some ⟨Day.firstOfMonth (month - 1), Day.firstOfMonth month⟩
  | thisQuarter => some ⟨Day.firstOfMonth quarter, tomorrow⟩
  | lastQuarter => some ⟨Day.firstOfMonth (quarter - 3), Day.firstOfMonth quarter⟩
  | thisYear => some ⟨Day.firstOfMonth year, tomorrow⟩
  | lastYear => some ⟨Day.firstOfMonth (year - 12), Day.firstOfMonth year⟩
  | custom => none

end DatePreset

end TableQuery

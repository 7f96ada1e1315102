import Mathlib
import TableQuery.Calendar.Instant
import TableQuery.Calendar.Preset
import TableQuery.Proofs.Calendar.Date

/-!
# Presets follow the calendar

Weeks, months, quarters and years begin on days of their own: Mondays, and the first days of months, of every third
month and of every twelfth. A month begins on or before a day just if its number is at most that of the day's month
(`Day.firstOfMonth_le_iff`), so the last of these days up to a day is found by rounding down the number of the day's
month, and the one before it by a step back.

## What is proved

`DatePreset.follow_calendar`: for every instant, before 1970 or after, the range of each preset. The ranges of this
week, month, quarter and year begin where the unit does, and those of the last are the whole unit before.
-/

namespace TableQuery

/-! ## Months -/

namespace Day

open Date

/-- The date on which a numbered month begins. -/
theorem valid_firstOfMonth (month : Int) :
    Date.Valid { year := month / 12, month := (month % 12).toNat + 1, day := 1 } where
  one_le_month := Nat.le_add_left _ _
  month_le := by
    dsimp only
    omega
  one_le_day := le_rfl
  day_le := monthLength_pos _ _

theorem ofDay_firstOfMonth (month : Int) :
    ofDay (firstOfMonth month) = { year := month / 12, month := (month % 12).toNat + 1, day := 1 } :=
  ofDay_toDay (valid_firstOfMonth month)

theorem monthOf_firstOfMonth (month : Int) : monthOf (firstOfMonth month) = month := by
  unfold monthOf
  rw [ofDay_firstOfMonth]
  dsimp only [Day]
  omega

/-- The number of a day's month tells the year and the month. -/
theorem monthOf_div_mod (day : Int) :
    monthOf day / 12 = (ofDay day).year ∧ (monthOf day % 12).toNat + 1 = (ofDay day).month := by
  obtain ⟨first, last, -, -⟩ := valid_ofDay day
  unfold monthOf
  dsimp only [Day]
  omega

/-- A day is as far behind the first of its month as its date says. -/
theorem firstOfMonth_monthOf (day : Int) : firstOfMonth (monthOf day) = day - (ofDay day).day + 1 := by
  obtain ⟨year, month⟩ := monthOf_div_mod day
  have here := toDay_ofDay day
  unfold firstOfMonth
  rw [year, month]
  dsimp only [toDay, Day] at here ⊢
  push_cast
  omega

/-- Months follow each other without a gap. -/
theorem firstOfMonth_add_one (month : Int) :
    firstOfMonth (month + 1)
      = firstOfMonth month + monthLength (isLeap (month / 12)) ((month % 12).toNat + 1) := by
  unfold firstOfMonth
  dsimp only [toDay, Day]
  by_cases december : month % 12 = 11
  · have year : (month + 1) / 12 = month / 12 + 1 := by omega
    have january : ((month + 1) % 12).toNat = 0 := by omega
    have twelve : (month % 12).toNat + 1 = 12 := by omega
    rw [year, january, twelve, daysBeforeYear_add_one, yearLength_eq, Nat.zero_add, daysBeforeMonth_one]
    push_cast
    omega
  · have year : (month + 1) / 12 = month / 12 := by omega
    have next : ((month + 1) % 12).toNat = (month % 12).toNat + 1 := by omega
    rw [year, next, daysBeforeMonth_add_one _ (Nat.le_add_left _ _) (by omega)]
    push_cast
    omega

theorem strictMono_firstOfMonth : StrictMono firstOfMonth :=
  strictMono_int_of_lt_succ fun month => by
    have some := monthLength_pos (isLeap (month / 12)) ((month % 12).toNat + 1)
    rw [firstOfMonth_add_one]
    dsimp only [Day]
    omega

/-- A month begins on a day or before just if the day's month is the same or a later one. -/
theorem firstOfMonth_le_iff {month day : Int} : firstOfMonth month ≤ day ↔ month ≤ monthOf day := by
  have begun := firstOfMonth_monthOf day
  have next := firstOfMonth_add_one (monthOf day)
  obtain ⟨-, -, one_le, day_le⟩ := valid_ofDay day
  rw [(monthOf_div_mod day).1, (monthOf_div_mod day).2] at next
  dsimp only [Day] at begun next
  have begins : firstOfMonth (monthOf day) ≤ day := by
    dsimp only [Day]
    omega
  have ends : day < firstOfMonth (monthOf day + 1) := by omega
  constructor
  · intro le
    exact Int.lt_add_one_iff.mp (strictMono_firstOfMonth.lt_iff_lt.mp (le.trans_lt ends))
  · intro le
    exact (strictMono_firstOfMonth.monotone le).trans begins

/-- A month begins at most 31 days earlier for each month that it comes before a day's. -/
theorem lt_firstOfMonth_add {month day : Int} (le : month ≤ monthOf day) :
    day < firstOfMonth month + 31 * (monthOf day - month + 1) := by
  induction month, le using Int.leInductionDown with
  | base =>
    have begun := firstOfMonth_monthOf day
    have last := (valid_ofDay day).day_le_31
    dsimp only [Day] at begun ⊢
    omega
  | pred month _ ih =>
    have next := firstOfMonth_add_one (month - 1)
    have last := monthLength_le (isLeap ((month - 1) / 12)) (((month - 1) % 12).toNat + 1)
    rw [sub_add_cancel] at next
    dsimp only [Day] at next ih ⊢
    omega

/-- A day on which the month begins, and the number of the month is a multiple. -/
def Opens (months : Int) (day : Day) : Prop := (ofDay day).day = 1 ∧ months ∣ monthOf day

theorem opens_iff {months : Int} {day : Day} : Opens months day ↔ ∃ n, day = firstOfMonth (months * n) := by
  constructor
  · rintro ⟨first, n, multiple⟩
    have begun := firstOfMonth_monthOf day
    refine ⟨n, ?_⟩
    rw [← multiple, begun, first]
    dsimp only [Day]
    omega
  · rintro ⟨n, rfl⟩
    unfold Opens
    rw [monthOf_firstOfMonth, ofDay_firstOfMonth]
    exact ⟨rfl, dvd_mul_right _ _⟩

section Greatest

variable {months : Int} (positive : 0 < months)
include positive

/-- The last of these days up to a day. -/
theorem isGreatest_opens_le (day : Day) :
    IsGreatest {d | Opens months d ∧ d ≤ day} (firstOfMonth (months * (monthOf day / months))) := by
  refine ⟨⟨opens_iff.mpr ⟨_, rfl⟩, firstOfMonth_le_iff.mpr (Int.mul_ediv_self_le positive.ne')⟩, ?_⟩
  rintro d ⟨opens, le⟩
  obtain ⟨n, rfl⟩ := opens_iff.mp opens
  rw [firstOfMonth_le_iff, mul_comm, ← Int.le_ediv_iff_mul_le positive] at le
  exact strictMono_firstOfMonth.monotone (Int.mul_le_mul_of_nonneg_left le positive.le)

/-- The last of these days before one of them. -/
theorem isGreatest_opens_lt (n : Int) :
    IsGreatest {d | Opens months d ∧ d < firstOfMonth (months * n)} (firstOfMonth (months * n - months)) := by
  have step : months * n - months = months * (n - 1) := by ring
  refine ⟨⟨opens_iff.mpr ⟨n - 1, by rw [step]⟩, strictMono_firstOfMonth (by omega)⟩, ?_⟩
  rintro d ⟨opens, lt⟩
  obtain ⟨m, rfl⟩ := opens_iff.mp opens
  have earlier : m < n := (mul_lt_mul_iff_right₀ positive).mp (strictMono_firstOfMonth.lt_iff_lt.mp lt)
  rw [step]
  exact strictMono_firstOfMonth.monotone (Int.mul_le_mul_of_nonneg_left (by omega) positive.le)

end Greatest

/-! ## Weeks -/

/-- A day on which a week begins: the fifth of January 1970, and every seventh day from it on and back. -/
def IsMonday (day : Day) : Prop := 7 ∣ day - 4

theorem isGreatest_isMonday_le (day : Int) : IsGreatest {d | IsMonday d ∧ d ≤ day} (startOfWeek day) := by
  unfold IsMonday startOfWeek weekday
  dsimp only [Day]
  refine ⟨⟨by omega, by omega⟩, ?_⟩
  rintro d ⟨monday, le⟩
  omega

theorem isGreatest_isMonday_lt {day : Int} (monday : IsMonday day) :
    IsGreatest {d | IsMonday d ∧ d < day} (day - 7) := by
  unfold IsMonday at *
  dsimp only [Day] at *
  refine ⟨⟨by omega, by omega⟩, ?_⟩
  rintro d ⟨monday', lt⟩
  omega

end Day

/-! ## Units of the calendar -/

/-- A unit of the calendar that presets name. -/
inductive CalendarUnit where
  | week | month | quarter | year
deriving DecidableEq

namespace CalendarUnit

/-- A day on which a unit begins. -/
def Begins : CalendarUnit → Day → Prop
  | week, day => day.IsMonday
  | month, day => (Date.ofDay day).day = 1
  | quarter, day => (Date.ofDay day).day = 1 ∧ (Date.ofDay day).month ∈ [1, 4, 7, 10]
  | year, day => (Date.ofDay day).day = 1 ∧ (Date.ofDay day).month = 1

/-- The preset of the unit that a day is in. -/
def current : CalendarUnit → DatePreset
  | week => .thisWeek
  | month => .thisMonth
  | quarter => .thisQuarter
  | year => .thisYear

/-- The preset of the unit before. -/
def previous : CalendarUnit → DatePreset
  | week => .lastWeek
  | month => .lastMonth
  | quarter => .lastQuarter
  | year => .lastYear

/-- Months, quarters and years begin where every month does, every third and every twelfth. -/
theorem begins_month {day : Day} : month.Begins day ↔ day.Opens 1 := (and_iff_left (one_dvd _)).symm

theorem begins_quarter {day : Day} : quarter.Begins day ↔ day.Opens 3 := by
  obtain ⟨first, last, -, -⟩ := Date.valid_ofDay day
  refine and_congr_right fun _ => ?_
  simp only [List.mem_cons, List.not_mem_nil, or_false]
  unfold Day.monthOf
  dsimp only [Day]
  omega

theorem begins_year {day : Day} : year.Begins day ↔ day.Opens 12 := by
  obtain ⟨first, last, -, -⟩ := Date.valid_ofDay day
  refine and_congr_right fun _ => ?_
  unfold Day.monthOf
  dsimp only [Day]
  omega

/-- The unit that a day is in begins with the last such day up to it, and the unit before begins with the last such day
before that. -/
structure Bounds (unit : CalendarUnit) (day first before : Day) : Prop where
  current : IsGreatest {d | unit.Begins d ∧ d ≤ day} first
  previous : IsGreatest {d | unit.Begins d ∧ d < first} before

theorem bounds_of_opens {unit : CalendarUnit} {months : Int} (positive : 0 < months)
    (opens : ∀ {d : Day}, unit.Begins d ↔ d.Opens months) (day : Day) :
    unit.Bounds day (Day.firstOfMonth (months * (day.monthOf / months)))
      (Day.firstOfMonth (months * (day.monthOf / months) - months)) := by
  refine ⟨?_, ?_⟩ <;> simp only [opens]
  · exact Day.isGreatest_opens_le positive day
  · exact Day.isGreatest_opens_lt positive _

theorem bounds_week (day : Day) : week.Bounds day day.startOfWeek (day.startOfWeek - 7) :=
  ⟨Day.isGreatest_isMonday_le day, Day.isGreatest_isMonday_lt (Day.isGreatest_isMonday_le day).1.1⟩

/-- The range of the unit that a day is in ends with the day, and that of the unit before is the whole unit. -/
theorem exists_rangeOn (unit : CalendarUnit) (day : Day) :
    ∃ first before, unit.Bounds day first before
      ∧ unit.current.rangeOn day = some ⟨first, day + 1⟩ ∧ unit.previous.rangeOn day = some ⟨before, first⟩ := by
  cases unit with
  | week => exact ⟨_, _, bounds_week day, rfl, rfl⟩
  | month =>
    have bounds := bounds_of_opens (by decide) begins_month day
    rw [Int.ediv_one, one_mul] at bounds
    exact ⟨_, _, bounds, rfl, rfl⟩
  | quarter => exact ⟨_, _, bounds_of_opens (by decide) begins_quarter day, rfl, rfl⟩
  | year => exact ⟨_, _, bounds_of_opens (by decide) begins_year day, rfl, rfl⟩

end CalendarUnit

/-! ## Every preset -/

/-- An instant is on its day. -/
theorem Instant.day_spec (t : Instant) :
    t.day * Instant.perDay ≤ t.nanoseconds.toInt ∧ t.nanoseconds.toInt < (t.day + 1) * Instant.perDay := by
  unfold Instant.day Instant.perDay
  dsimp only [Day]
  omega

namespace DatePreset

/-- Every preset names a range that is not empty, but for the one that leaves the range to the caller. -/
theorem exists_start_lt_stop {preset : DatePreset} (named : preset ≠ custom) (day : Day) :
    ∃ range, preset.rangeOn day = some range ∧ range.start < range.stop := by
  have units (unit : CalendarUnit) : (∃ range, unit.current.rangeOn day = some range ∧ range.start < range.stop)
      ∧ ∃ range, unit.previous.rangeOn day = some range ∧ range.start < range.stop := by
    obtain ⟨first, before, bounds, current, previous⟩ := unit.exists_rangeOn day
    exact ⟨⟨_, current, Int.lt_add_one_iff.mpr bounds.current.1.2⟩, _, previous, bounds.previous.1.2⟩
  have days (start stop : Int) (lt : start < stop) :
      ∃ range, some (DateRange.mk start stop) = some range ∧ range.start < range.stop := ⟨_, rfl, lt⟩
  cases preset with
  | today => exact days day (day + 1) (by omega)
  | yesterday => exact days (day - 1) day (by omega)
  | last7Days => exact days (day - 7) (day + 1) (by omega)
  | last30Days => exact days (day - 30) (day + 1) (by omega)
  | last90Days => exact days (day - 90) (day + 1) (by omega)
  | thisWeek => exact (units .week).1
  | lastWeek => exact (units .week).2
  | thisMonth => exact (units .month).1
  | lastMonth => exact (units .month).2
  | thisQuarter => exact (units .quarter).1
  | lastQuarter => exact (units .quarter).2
  | thisYear => exact (units .year).1
  | lastYear => exact (units .year).2
  | custom => exact absurd rfl named

/-- The range of a preset begins on the day or before, two years and some days at most, and ends after the day or
before, a year and some days at most. -/
theorem rangeOn_near {preset : DatePreset} {day : Int} {range : DateRange} (found : preset.rangeOn day = some range) :
    day - 744 < range.start ∧ range.start ≤ day ∧ day - 372 < range.stop ∧ range.stop ≤ day + 1 := by
  have near (month : Int) (le : month ≤ Day.monthOf day) (months : Int) (within : Day.monthOf day - month ≤ months) :
      day - 31 * (months + 1) < Day.firstOfMonth month ∧ Day.firstOfMonth month ≤ day := by
    have begins := Day.lt_firstOfMonth_add le
    refine ⟨?_, Day.firstOfMonth_le_iff.mpr le⟩
    dsimp only [Day] at begins ⊢
    omega
  have month := near (Day.monthOf day) le_rfl 0 (by omega)
  have monthBefore := near (Day.monthOf day - 1) (by omega) 1 (by omega)
  have quarter := near (3 * (Day.monthOf day / 3)) (by omega) 2 (by omega)
  have quarterBefore := near (3 * (Day.monthOf day / 3) - 3) (by omega) 5 (by omega)
  have year := near (12 * (Day.monthOf day / 12)) (by omega) 11 (by omega)
  have yearBefore := near (12 * (Day.monthOf day / 12) - 12) (by omega) 23 (by omega)
  unfold rangeOn Day.startOfWeek Day.weekday at found
  cases preset <;> cases found <;> dsimp only [Day] at * <;> omega

/-- Presets follow the calendar, in which the days from the first of January 1970 on and back have one date after the
other. On the day of an instant every named range has a day in it; the ranges of days are counted from the day; the
range of the week, month, quarter or year begins with the last Monday or first day of one up to the day, and ends with
the day; and that of the unit before goes from the day before that on which such a unit began up to it. -/
theorem follow_calendar (now : Instant) :
    (Date.ofDay 0 = { year := 1970, month := 1, day := 1 }
      ∧ ∀ day, (Date.ofDay day).Valid ∧ Date.ofDay (day + 1) = (Date.ofDay day).next)
    ∧ (now.day * Instant.perDay ≤ now.nanoseconds.toInt ∧ now.nanoseconds.toInt < (now.day + 1) * Instant.perDay)
    ∧ (∀ preset, preset ≠ custom → ∃ range, rangeOn now.day preset = some range ∧ range.start < range.stop)
    ∧ (rangeOn now.day today = some ⟨now.day, now.day + 1⟩
      ∧ rangeOn now.day yesterday = some ⟨now.day - 1, now.day⟩
      ∧ rangeOn now.day last7Days = some ⟨now.day - 7, now.day + 1⟩
      ∧ rangeOn now.day last30Days = some ⟨now.day - 30, now.day + 1⟩
      ∧ rangeOn now.day last90Days = some ⟨now.day - 90, now.day + 1⟩)
    ∧ ∀ unit : CalendarUnit, ∃ first before,
      IsGreatest {d | unit.Begins d ∧ d ≤ now.day} first ∧ IsGreatest {d | unit.Begins d ∧ d < first} before
        ∧ rangeOn now.day unit.current = some ⟨first, now.day + 1⟩
        ∧ rangeOn now.day unit.previous = some ⟨before, first⟩ := by
  refine ⟨⟨Date.ofDay_zero, fun day => ⟨Date.valid_ofDay day, Date.ofDay_add_one day⟩⟩, now.day_spec,
    fun _ named => exists_start_lt_stop named now.day, ⟨rfl, rfl, rfl, rfl, rfl⟩, fun unit => ?_⟩
  obtain ⟨first, before, bounds, current, previous⟩ := unit.exists_rangeOn now.day
  exact ⟨first, before, bounds.current, bounds.previous, current, previous⟩

/-- A nanosecond before 1970, on the last day of December: the quarter before is July, August and September. -/
theorem follow_calendar_lastQuarter :
    (Instant.mk (-1)).day = -1 ∧ lastQuarter ≠ custom
      ∧ ∃ range, rangeOn (-1) lastQuarter = some range ∧ range.start < range.stop
        ∧ Date.ofDay range.start = { year := 1969, month := 7, day := 1 }
        ∧ Date.ofDay range.stop = { year := 1969, month := 10, day := 1 } := by
  obtain ⟨range, found, lt⟩ := (follow_calendar ⟨-1⟩).2.2.1 lastQuarter (by decide)
  obtain rfl : range = ⟨-184, -92⟩ := Option.some.inj (found.symm.trans (by decide))
  exact ⟨by decide, by decide, _, found, lt, by decide, by decide⟩

end DatePreset

end TableQuery

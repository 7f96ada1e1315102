import Mathlib
import TableQuery.Calendar.Date

/-!
# The calendar, day by day

A date is followed by the next day of its month, by the first of the next month, or by the first of the next year
(`Date.next`). The numbers of the days follow the dates in this way, from the first day of 1970 on and back: the
arithmetic of cycles of four hundred years, and the table of the first days of the months, come to the same.

Years and months are each laid out without gaps, so a day lies in one year, at one place of it, and in one month.

## What is proved

`Date.toDay_ofDay` and `Date.ofDay_toDay`: days and the dates of the calendar are the same.
`Date.ofDay_add_one`: the date of the next day is the next date.
`Date.before_ofDay_iff`: days are in the order of their dates.
-/

namespace TableQuery

namespace Date

/-! ## Years -/

theorem isLeap_iff {year : Int} : isLeap year = true ↔ year % 4 = 0 ∧ (year % 100 ≠ 0 ∨ year % 400 = 0) := by
  simp [isLeap]

/-- The number of days of a year. -/
def yearLength (year : Int) : Nat := if isLeap year then 366 else 365

/-- Years follow each other without a gap. -/
theorem daysBeforeYear_add_one (year : Int) : daysBeforeYear (year + 1) = daysBeforeYear year + yearLength year := by
  dsimp only [daysBeforeYear]
  unfold yearLength
  split_ifs with leap <;> rw [isLeap_iff] at leap <;> omega

theorem strictMono_daysBeforeYear : StrictMono daysBeforeYear :=
  strictMono_int_of_lt_succ fun year => by
    have some : 0 < yearLength year := by
      unfold yearLength
      split_ifs <;> decide
    rw [daysBeforeYear_add_one]
    omega

section Parts

/-! A year by its cycle of four hundred years, its century in that, its four years in that, and its place in these. -/

variable {cycle century four one : Int} (hcentury : 0 ≤ century ∧ century ≤ 3) (hfour : 0 ≤ four ∧ four ≤ 24)
  (hone : 0 ≤ one ∧ one ≤ 3)
include hcentury hfour hone

theorem daysBeforeYear_parts :
    daysBeforeYear (400 * cycle + 100 * century + 4 * four + one + 1)
      = 146097 * cycle + 36524 * century + 1461 * four + 365 * one := by
  dsimp only [daysBeforeYear]
  omega

/-- The last of four years is a leap year, but for the last of a century that does not end a cycle. -/
theorem isLeap_parts :
    isLeap (400 * cycle + 100 * century + 4 * four + one + 1) = true ↔ one = 3 ∧ (four ≠ 24 ∨ century = 3) := by
  rw [isLeap_iff]
  omega

end Parts

/-- A day is at its place of its year, and the place is one of the year's. -/
theorem yearAndPlace_spec (day : Int) :
    day + epoch = daysBeforeYear (yearAndPlace day).1 + (yearAndPlace day).2
      ∧ (yearAndPlace day).2 < yearLength (yearAndPlace day).1 := by
  unfold yearAndPlace
  dsimp only [Day]
  generalize day + epoch = n
  have whole : 146097 * (n / 146097) + n % 146097 = n := Int.mul_ediv_add_emod n 146097
  have inCycle : 0 ≤ n % 146097 ∧ n % 146097 < 146097 := by omega
  generalize n / 146097 = cycle at whole ⊢
  generalize n % 146097 = rest at whole inCycle ⊢
  obtain ⟨century, hcentury⟩ : ∃ century, century = min 3 (rest / 36524) := ⟨_, rfl⟩
  have inCentury : 0 ≤ rest - 36524 * century ∧ rest - 36524 * century ≤ 36524
      ∧ (century ≠ 3 → rest - 36524 * century < 36524) ∧ 0 ≤ century ∧ century ≤ 3 := by omega
  rw [← hcentury]
  obtain ⟨years, hyears⟩ : ∃ years, years = rest - 36524 * century := ⟨_, rfl⟩
  rw [← hyears] at inCentury ⊢
  obtain ⟨four, hfour⟩ : ∃ four, four = years / 1461 := ⟨_, rfl⟩
  obtain ⟨inFour, hinFour⟩ : ∃ inFour, inFour = years % 1461 := ⟨_, rfl⟩
  have split : 1461 * four + inFour = years := by omega
  have hfour' : 0 ≤ four ∧ four ≤ 24 := by omega
  have hinFour' : 0 ≤ inFour ∧ inFour < 1461 := by omega
  rw [← hfour, ← hinFour]
  obtain ⟨one, hone⟩ : ∃ one, one = min 3 (inFour / 365) := ⟨_, rfl⟩
  have hone' : 0 ≤ one ∧ one ≤ 3 := by omega
  rw [← hone, daysBeforeYear_parts inCentury.2.2.2 hfour' hone']
  refine ⟨by omega, ?_⟩
  unfold yearLength
  split_ifs with leap <;> rw [isLeap_parts inCentury.2.2.2 hfour' hone'] at leap <;> omega

/-- A day has only one year and place. -/
theorem yearAndPlace_eq {day year : Int} {place : Nat} (at' : day + epoch = daysBeforeYear year + place)
    (within : place < yearLength year) : yearAndPlace day = (year, place) := by
  obtain ⟨here, within'⟩ := yearAndPlace_spec day
  generalize yearAndPlace day = found at here within' ⊢
  obtain ⟨year', place'⟩ := found
  dsimp only at here within'
  have next := daysBeforeYear_add_one year
  have next' := daysBeforeYear_add_one year'
  have notBefore : year < year' + 1 := strictMono_daysBeforeYear.lt_iff_lt.mp (by omega)
  have notAfter : year' < year + 1 := strictMono_daysBeforeYear.lt_iff_lt.mp (by omega)
  obtain rfl : year = year' := by omega
  obtain rfl : place = place' := by omega
  rfl

/-! ## Months -/

/-- The number of days of a month. -/
def monthLength (leap : Bool) : Nat → Nat
  | 2 => if leap then 29 else 28
  | 4 | 6 | 9 | 11 => 30
  | _ => 31

/-- Months follow each other without a gap. -/
theorem daysBeforeMonth_add_one (leap : Bool) {month : Nat} (first : 1 ≤ month) (last : month < 12) :
    daysBeforeMonth leap (month + 1) = daysBeforeMonth leap month + monthLength leap month := by
  interval_cases month <;> cases leap <;> rfl

theorem daysBeforeMonth_one (leap : Bool) : daysBeforeMonth leap 1 = 0 := by cases leap <;> rfl

/-- A year ends with December. -/
theorem yearLength_eq (year : Int) :
    yearLength year = daysBeforeMonth (isLeap year) 12 + monthLength (isLeap year) 12 := by
  unfold yearLength
  cases isLeap year <;> rfl

/-- A month lies in its year. -/
theorem month_le_yearLength (year : Int) {month : Nat} (first : 1 ≤ month) (last : month ≤ 12) :
    daysBeforeMonth (isLeap year) month + monthLength (isLeap year) month ≤ yearLength year := by
  rw [yearLength_eq]
  interval_cases month <;> cases isLeap year <;> decide

theorem monthLength_pos (leap : Bool) (month : Nat) : 0 < monthLength leap month := by
  unfold monthLength
  split <;> try decide
  cases leap <;> decide

/-- The numbers of an ascending list that are no more than a bound come first. -/
theorem lt_length_filter_le_iff {l : List Nat} (ascending : l.Pairwise (· < ·)) {bound i : Nat} :
    i < (l.filter (· ≤ bound)).length ↔ ∃ n, l[i]? = some n ∧ n ≤ bound := by
  induction l generalizing i with
  | nil => simp
  | cons a l ih =>
    rw [List.pairwise_cons] at ascending
    by_cases low : a ≤ bound
    · rw [List.filter_cons_of_pos (by simpa using low), List.length_cons]
      cases i with
      | zero => simpa using low
      | succ i => rw [Nat.succ_lt_succ_iff, ih ascending.2, List.getElem?_cons_succ]
    · have none : l.filter (· ≤ bound) = [] := by
        rw [List.filter_eq_nil_iff]
        intro n mem
        have above := ascending.1 n mem
        simp only [decide_eq_true_eq]
        omega
      rw [List.filter_cons_of_neg (by simpa using low), none]
      refine iff_of_false (Nat.not_lt_zero _) ?_
      rintro ⟨n, found, le⟩
      rcases List.mem_cons.mp (List.mem_of_getElem? found) with rfl | mem
      · exact low le
      · have above := ascending.1 n mem
        omega

theorem ascending_monthStarts (leap : Bool) : (monthStarts leap).Pairwise (· < ·) := by cases leap <;> decide

theorem getElem?_monthStarts (leap : Bool) {month : Nat} (first : 1 ≤ month) (last : month ≤ 12) :
    (monthStarts leap)[month - 1]? = some (daysBeforeMonth leap month) := by
  interval_cases month <;> cases leap <;> rfl

/-- The month of a place in a year: the number of months that begin there or before. -/
def monthAt (leap : Bool) (place : Nat) : Nat := ((monthStarts leap).filter (· ≤ place)).length

theorem lt_monthAt_iff (leap : Bool) {place month : Nat} (first : 1 ≤ month) (last : month ≤ 12) :
    month - 1 < monthAt leap place ↔ daysBeforeMonth leap month ≤ place := by
  rw [monthAt, lt_length_filter_le_iff (ascending_monthStarts leap), getElem?_monthStarts leap first last]
  simp

theorem monthAt_le (leap : Bool) (place : Nat) : monthAt leap place ≤ 12 :=
  (List.length_filter_le _ _).trans (by cases leap <;> decide)

theorem one_le_monthAt (leap : Bool) (place : Nat) : 1 ≤ monthAt leap place := by
  have first : 1 - 1 < monthAt leap place := by
    rw [lt_monthAt_iff leap le_rfl (by decide), daysBeforeMonth_one]
    exact Nat.zero_le _
  exact first

/-- A place of a year is in its month. -/
theorem monthAt_spec {year : Int} {place : Nat} (within : place < yearLength year) :
    daysBeforeMonth (isLeap year) (monthAt (isLeap year) place) ≤ place
      ∧ place < daysBeforeMonth (isLeap year) (monthAt (isLeap year) place)
          + monthLength (isLeap year) (monthAt (isLeap year) place) := by
  have first := one_le_monthAt (isLeap year) place
  have last := monthAt_le (isLeap year) place
  refine ⟨(lt_monthAt_iff _ first last).mp (by omega), ?_⟩
  rcases last.lt_or_eq with earlier | december
  · rw [← daysBeforeMonth_add_one _ first earlier, ← not_le,
      ← lt_monthAt_iff _ (by omega) (by omega)]
    omega
  · rwa [december, ← yearLength_eq]

/-- A place of a year is in no other month. -/
theorem monthAt_eq {leap : Bool} {place month : Nat} (first : 1 ≤ month) (last : month ≤ 12)
    (begins : daysBeforeMonth leap month ≤ place) (ends : place < daysBeforeMonth leap month + monthLength leap month) :
    monthAt leap place = month := by
  have notBefore := (lt_monthAt_iff leap first last).mpr begins
  have atMost := monthAt_le leap place
  rcases last.lt_or_eq with earlier | rfl
  · rw [← daysBeforeMonth_add_one _ first earlier, ← not_le,
      ← lt_monthAt_iff _ (by omega) (by omega)] at ends
    omega
  · omega

/-! ## Days and dates -/

/-- A date of the calendar: a day of a month. -/
structure Valid (d : Date) : Prop where
  one_le_month : 1 ≤ d.month
  month_le : d.month ≤ 12
  one_le_day : 1 ≤ d.day
  day_le : d.day ≤ monthLength (isLeap d.year) d.month

theorem ofDay_eq (day : Day) :
    ofDay day =
      { year := (yearAndPlace day).1
        month := monthAt (isLeap (yearAndPlace day).1) (yearAndPlace day).2
        day := (yearAndPlace day).2
          - daysBeforeMonth (isLeap (yearAndPlace day).1) (monthAt (isLeap (yearAndPlace day).1) (yearAndPlace day).2)
          + 1 } := rfl

theorem valid_ofDay (day : Day) : (ofDay day).Valid := by
  have within := (yearAndPlace_spec day).2
  rw [ofDay_eq]
  generalize yearAndPlace day = found at within ⊢
  obtain ⟨begins, ends⟩ := monthAt_spec within
  exact {
    one_le_month := one_le_monthAt _ _
    month_le := monthAt_le _ _
    one_le_day := Nat.le_add_left _ _
    day_le := by dsimp only; omega }

/-- A day is the day of its date. -/
theorem toDay_ofDay (day : Int) : (ofDay day).toDay = day := by
  obtain ⟨here, within⟩ := yearAndPlace_spec day
  rw [ofDay_eq]
  generalize yearAndPlace day = found at here within ⊢
  obtain ⟨begins, -⟩ := monthAt_spec within
  dsimp only [toDay, Day]
  omega

/-- A date of the calendar is the date of its day. -/
theorem ofDay_toDay {d : Date} (valid : d.Valid) : ofDay d.toDay = d := by
  obtain ⟨first, last, one_le, day_le⟩ := valid
  have inYear := month_le_yearLength d.year first last
  have ends : daysBeforeMonth (isLeap d.year) d.month + (d.day - 1) < yearLength d.year := by omega
  have place : yearAndPlace d.toDay = (d.year, daysBeforeMonth (isLeap d.year) d.month + (d.day - 1)) := by
    apply yearAndPlace_eq _ ends
    dsimp only [toDay, Day]
    push_cast [Nat.cast_sub one_le]
    omega
  have month : monthAt (isLeap d.year) (daysBeforeMonth (isLeap d.year) d.month + (d.day - 1)) = d.month :=
    monthAt_eq first last (Nat.le_add_right _ _) (by omega)
  rw [ofDay_eq, place]
  dsimp only
  rw [month]
  congr
  omega

/-! ## The next day -/

/-- The date after a date. -/
def next (d : Date) : Date :=
  if d.day < monthLength (isLeap d.year) d.month then { d with day := d.day + 1 }
  else if d.month < 12 then { d with month := d.month + 1, day := 1 }
  else { year := d.year + 1, month := 1, day := 1 }

theorem Valid.next {d : Date} (valid : d.Valid) : d.next.Valid := by
  obtain ⟨first, last, one_le, day_le⟩ := valid
  unfold Date.next
  split_ifs with inMonth inYear
  · exact ⟨first, last, Nat.le_add_left _ _, inMonth⟩
  · exact ⟨Nat.le_add_left _ _, inYear, le_rfl, monthLength_pos _ _⟩
  · exact ⟨le_rfl, (by decide : 1 ≤ 12), le_rfl, monthLength_pos _ _⟩

theorem toDay_next {d : Date} (valid : d.Valid) : d.next.toDay = d.toDay + 1 := by
  obtain ⟨first, last, one_le, day_le⟩ := valid
  unfold next
  split_ifs with inMonth inYear
  · dsimp only [toDay, Day]
    push_cast
    omega
  · have month := daysBeforeMonth_add_one (isLeap d.year) first inYear
    dsimp only [toDay, Day]
    rw [month]
    push_cast
    omega
  · have year := daysBeforeYear_add_one d.year
    have december := yearLength_eq d.year
    obtain twelve : d.month = 12 := by omega
    rw [twelve] at day_le inMonth
    dsimp only [toDay, Day]
    rw [twelve, year, december, daysBeforeMonth_one]
    push_cast
    omega

/-- The first of January 1970 is the day from which days are counted. -/
theorem ofDay_zero : ofDay 0 = { year := 1970, month := 1, day := 1 } := by decide

/-- The date of the next day is the next date. -/
theorem ofDay_add_one (day : Int) : ofDay (day + 1) = (ofDay day).next := by
  have valid := valid_ofDay day
  rw [← ofDay_toDay valid.next, toDay_next valid, toDay_ofDay]

/-! ## The order of dates -/

/-- A date comes before another: by the year, then by the month, and then by the day. -/
def Before (d e : Date) : Prop :=
  d.year < e.year ∨ d.year = e.year ∧ (d.month < e.month ∨ d.month = e.month ∧ d.day < e.day)

/-- A number for each date, as if every month had 31 days. -/
def rank (d : Date) : Int := 31 * (12 * d.year + d.month) + d.day

theorem monthLength_le (leap : Bool) (month : Nat) : monthLength leap month ≤ 31 := by
  unfold monthLength
  split <;> try decide
  cases leap <;> decide

theorem Valid.day_le_31 {d : Date} (valid : d.Valid) : d.day ≤ 31 := valid.day_le.trans (monthLength_le _ _)

theorem before_iff_rank_lt {d e : Date} (hd : d.Valid) (he : e.Valid) : d.Before e ↔ d.rank < e.rank := by
  have day_le := hd.day_le_31
  have day_le' := he.day_le_31
  obtain ⟨first, last, one_le, -⟩ := hd
  obtain ⟨first', last', one_le', -⟩ := he
  unfold Before rank
  omega

theorem rank_lt_rank_next {d : Date} (valid : d.Valid) : d.rank < d.next.rank := by
  have last := valid.month_le
  have day_le := valid.day_le_31
  unfold next rank
  split_ifs <;> dsimp only <;> push_cast <;> omega

/-- Days are in the order of their dates. -/
theorem before_ofDay_iff {a b : Int} : (ofDay a).Before (ofDay b) ↔ a < b := by
  have ranks : StrictMono fun day : Int => (ofDay day).rank := strictMono_int_of_lt_succ fun day => by
    rw [ofDay_add_one]
    exact rank_lt_rank_next (valid_ofDay day)
  rw [before_iff_rank_lt (valid_ofDay a) (valid_ofDay b)]
  exact ranks.lt_iff_lt

end Date

end TableQuery

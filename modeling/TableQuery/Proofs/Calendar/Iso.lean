import TableQuery.Proofs.Calendar.Preset
import TableQuery.Proofs.Number.Word
import TableQuery.Proofs.Text.Digits

/-!
# Days as text

A day is written as the midnight with which it begins, the year in four places at least, the month and the day in two.
Dates are compared by the year, then by the month, then by the day, and so are these texts as long as the years have the
same number of places.

## What is proved

`Day.toIso_injective`: different days have different texts. `Day.toIso_lt_iff`: in the years from 0 to 9999 the texts are
in the order of the days. `DatePreset.hasFourPlaces_rangeOn`: the ranges of the presets lie in these years at every
instant.
-/

namespace TableQuery

namespace Date

/-! ## Dates as text -/

theorem padded_of_nonneg {width : Nat} {n : Int} (nonneg : 0 ≤ n) :
    padded width n = Bytes.ofNatPadded width n.natAbs := if_neg (by omega)

theorem padded_injective (width : Nat) : Function.Injective (padded width) := by
  intro m n same
  have signed {width' : Nat} {k l : Nat} : Ascii.minus :: Bytes.ofNatPadded width' k ≠ Bytes.ofNatPadded width l := by
    intro same
    have digit := Bytes.isDigits_ofNatPadded width l Ascii.minus (same ▸ List.mem_cons_self)
    exact absurd digit (by decide)
  unfold padded at same
  split_ifs at same with hm hn hn
  · have := Bytes.ofNatPadded_injective _ (List.cons.inj same).2
    omega
  · exact absurd same signed
  · exact absurd same.symm signed
  · have := Bytes.ofNatPadded_injective _ same
    omega

/-- The part of a date's text after the year. -/
def afterYear (d : Date) : Bytes :=
  Ascii.minus :: (Bytes.ofNatPadded 2 d.month ++ Ascii.minus :: (Bytes.ofNatPadded 2 d.day ++ "T00:00:00.000Z"))

theorem toIso_eq (day : Day) : day.toIso = padded 4 (ofDay day).year ++ (ofDay day).afterYear := by
  unfold Day.toIso afterYear
  simp only [List.append_assoc, List.cons_append]

section Valid

variable {d e : Date}

/-- The part after the year has two places for the month and two for the day. -/
theorem length_afterYear (hd : d.Valid) : d.afterYear.length = 20 := by
  have month := hd.month_le
  have day := hd.day_le_31
  unfold afterYear
  rw [List.length_cons, List.length_append, List.length_cons, List.length_append,
    Bytes.length_ofNatPadded (by decide) (by omega), Bytes.length_ofNatPadded (by decide) (by omega)]
  rfl

theorem cons_lt_cons_self {b : UInt8} {s t : Bytes} : b :: s < b :: t ↔ s < t := by
  rw [List.cons_lt_cons_iff]
  simp

theorem afterYear_lt_iff (hd : d.Valid) (he : e.Valid) :
    d.afterYear < e.afterYear ↔ d.month < e.month ∨ d.month = e.month ∧ d.day < e.day := by
  have hmonth := hd.month_le
  have hmonth' := he.month_le
  have hday := hd.day_le_31
  have hday' := he.day_le_31
  have clock : ¬Bytes.ofString "T00:00:00.000Z" < Bytes.ofString "T00:00:00.000Z" := List.lt_irrefl _
  unfold afterYear
  rw [cons_lt_cons_self, Bytes.ofNatPadded_append_lt_iff (by decide) (by omega) (by omega), cons_lt_cons_self,
    Bytes.ofNatPadded_append_lt_iff (by decide) (by omega) (by omega)]
  simp only [clock, and_false, or_false]

end Valid

end Date

namespace Day

open Date

/-- Days are told by their texts. -/
theorem toIso_injective : Function.Injective toIso := by
  intro a b same
  rw [toIso_eq, toIso_eq] at same
  have ha := valid_ofDay a
  have hb := valid_ofDay b
  obtain ⟨year, rest⟩ := List.append_inj' same ((length_afterYear ha).trans (length_afterYear hb).symm)
  have year := padded_injective 4 year
  have le {d e : Date} (hd : d.Valid) (he : e.Valid) (year : d.year = e.year) (rest : d.afterYear = e.afterYear) :
      ¬d.Before e := by
    have least := (afterYear_lt_iff hd he).not.mp (rest ▸ List.lt_irrefl _)
    rintro (less | ⟨-, less⟩)
    · exact less.ne year
    · exact least less
  have notBefore := before_ofDay_iff.not.mp (le ha hb year rest)
  have notAfter := before_ofDay_iff.not.mp (le hb ha year.symm rest.symm)
  exact le_antisymm (not_lt.mp notAfter) (not_lt.mp notBefore)

/-- A day of a year from 0 to 9999. -/
def HasFourPlaces (day : Day) : Prop := 0 ≤ (ofDay day).year ∧ (ofDay day).year ≤ 9999

instance (day : Day) : Decidable day.HasFourPlaces := inferInstanceAs (Decidable (_ ∧ _))

/-- Texts with four places for the year are in the order of the days. -/
theorem toIso_lt_iff {a b : Day} (ha : a.HasFourPlaces) (hb : b.HasFourPlaces) : a.toIso < b.toIso ↔ a < b := by
  obtain ⟨low, high⟩ := ha
  obtain ⟨low', high'⟩ := hb
  rw [toIso_eq, toIso_eq, padded_of_nonneg low, padded_of_nonneg low',
    Bytes.ofNatPadded_append_lt_iff (by decide) (by omega) (by omega),
    afterYear_lt_iff (valid_ofDay a) (valid_ofDay b), ← before_ofDay_iff]
  unfold Before
  omega

/-- From the first of January of year 0 to the last of December of year 9999. -/
theorem hasFourPlaces_iff {day : Int} : HasFourPlaces day ↔ -719528 ≤ day ∧ day ≤ 2932896 := by
  obtain ⟨first, last, one_le, -⟩ := valid_ofDay day
  have day_le := (valid_ofDay day).day_le_31
  have early : ofDay (-719528) = ⟨0, 1, 1⟩ := by decide
  have late : ofDay 2932896 = ⟨9999, 12, 31⟩ := by decide
  rw [← not_lt, ← not_lt, ← before_ofDay_iff, ← before_ofDay_iff, early, late]
  unfold HasFourPlaces Before
  dsimp only
  omega

end Day

/-- The instants that can be told are those of some centuries before and after 1970. -/
theorem Instant.day_bounds (t : Instant) : -106752 ≤ (t.day : Int) ∧ (t.day : Int) ≤ 106751 := by
  obtain ⟨low, high⟩ := fitsWord_toInt t.nanoseconds
  unfold Instant.day Instant.perDay
  dsimp only [Day]
  omega

/-- At every instant, the range of a preset lies in the years from 0 to 9999. -/
theorem DatePreset.hasFourPlaces_rangeOn {preset : DatePreset} {now : Instant} {range : DateRange}
    (found : preset.rangeOn now.day = some range) : range.start.HasFourPlaces ∧ range.stop.HasFourPlaces := by
  obtain ⟨low, high⟩ := now.day_bounds
  have near := rangeOn_near found
  rw [Day.hasFourPlaces_iff, Day.hasFourPlaces_iff]
  dsimp only [Day] at *
  omega

end TableQuery

import Mathlib.Tactic.Ring
import TableQuery.Proofs.Number.Word
import TableQuery.Statement.Window

/-!
# Pages tile the rows

A page size is held within its bounds first, and the number of a page is held back by it: as many whole pages as go
into the greatest 64-bit integer may come before a page. So every result on the way to a window fits 64 bits, and the
windows of the pages lie side by side.

`Window.checked?` goes the same way, and gives up where a result would not fit or a divisor is zero.

## What is proved

`Window.toInt_page` and `Window.toInt_offset`: the numbers of a window, as exact integers. `Window.checked?_eq`: no
result on the way leaves 64 bits.
`Window.tiles`: the bounds of a window, which page numbers are held back, and the one page that each row is on.
-/

namespace TableQuery

/-! ## Page sizes -/

namespace Pagination

variable (p : Pagination) (requested : Option Int64)

theorem toInt_greatestSize : p.greatestSize.toInt = max 1 p.maxPageSize.toInt := by
  unfold greatestSize
  split_ifs with small <;> rw [Int64.lt_iff_toInt_lt, Int64.toInt_one] at small
  · rw [Int64.toInt_one]
    omega
  · omega

/-- A page size is held within one and the greatest size. -/
theorem toInt_clampSize :
    (p.clampSize requested).toInt
      = max 1 (min (requested.getD p.defaultPageSize).toInt (max 1 p.maxPageSize.toInt)) := by
  have greatest := p.toInt_greatestSize
  unfold clampSize
  dsimp only
  split_ifs with small large
  · rw [Int64.lt_iff_toInt_lt, Int64.toInt_one] at small
    rw [Int64.toInt_one]
    omega
  · rw [Int64.lt_iff_toInt_lt, greatest] at large
    omega
  · rw [Int64.lt_iff_toInt_lt, Int64.toInt_one] at small
    rw [Int64.lt_iff_toInt_lt, greatest] at large
    omega

/-- Bounds the wrong way round leave one row to a page. -/
example : ({ defaultPageSize := 50, maxPageSize := -5 } : Pagination).clampSize none = 1 := by decide

theorem one_le_clampSize : 1 ≤ (p.clampSize requested).toInt := by
  rw [toInt_clampSize]
  exact le_max_left _ _

end Pagination

namespace Window

/-! ## What a window should be -/

/-- The number of a page where most pages may come before it, if each result on the way fits 64 bits. -/
def checkedPage? (requested most : Int64) : Option Int64 :=
  if requested ≤ 1 then some 1
  else do
    let skipped ← word? (requested.toInt - 1)
    word? ((if most < skipped then most else skipped).toInt + 1)

/-- The window of a requested page, if each result on the way fits 64 bits and no divisor is zero. -/
def checked? (p : Pagination) (page pageSize : Option Int64) : Option Window := do
  let size := p.clampSize pageSize
  let most ← if size = 0 then none else word? (greatest.toInt.tdiv size.toInt)
  let number ← checkedPage? (page.getD 1) most
  let before ← word? (number.toInt - 1)
  let offset ← word? (before.toInt * size.toInt)
  return { page := number, pageSize := size, limit := some size, offset }

/-- A row is on a page; rows are counted from zero. -/
def Holds (w : Window) (row : Int) : Prop :=
  ∃ size, w.limit = some size ∧ w.offset.toInt ≤ row ∧ row < w.offset.toInt + size.toInt

/-- The bounds of a window, and where it begins. -/
structure Bounded (p : Pagination) (w : Window) : Prop where
  one_le_size : 1 ≤ w.pageSize.toInt
  size_le : w.pageSize.toInt ≤ max 1 p.maxPageSize.toInt
  limit : w.limit = some w.pageSize
  one_le_page : 1 ≤ w.page.toInt
  offset : w.offset.toInt = (w.page.toInt - 1) * w.pageSize.toInt

/-! ## The numbers of a window -/

/-- The most whole pages that may come before a page. -/
def mostBefore (size : Int) : Int := 9223372036854775807 / size

theorem mostBefore_nonneg {size : Int} (positive : 1 ≤ size) : 0 ≤ mostBefore size :=
  Int.ediv_nonneg (by decide) (by omega)

theorem mostBefore_mul_le {size : Int} (positive : 1 ≤ size) : mostBefore size * size ≤ 9223372036854775807 :=
  Int.ediv_mul_le _ (by omega)

theorem toInt_greatest_div {size : Int64} (positive : 1 ≤ size.toInt) :
    (greatest / size).toInt = mostBefore size.toInt := by
  have dividend : greatest.toInt = 9223372036854775807 := rfl
  rw [toInt_div_of_pos (by rw [dividend]; decide) (by omega), dividend]
  rfl

section Numbers

variable {p : Pagination} (enabled : p.enabled = true) (page pageSize : Option Int64)

/-- The number of pages to skip for a page that is not the first. -/
theorem toInt_skipped (later : ¬page.getD 1 ≤ 1) : (page.getD 1 - 1).toInt = (page.getD 1).toInt - 1 := by
  obtain ⟨-, high⟩ := fitsWord_toInt (page.getD 1)
  rw [Int64.le_iff_toInt_le, Int64.toInt_one] at later
  exact toInt_sub_of_fits ⟨by rw [Int64.toInt_one]; omega, by rw [Int64.toInt_one]; omega⟩

/-- The page after those that are skipped. -/
theorem toInt_number (later : ¬page.getD 1 ≤ 1) {size : Int64} (positive : 1 ≤ size.toInt) :
    ((if greatest / size < page.getD 1 - 1 then greatest / size else page.getD 1 - 1) + 1).toInt
      = (if greatest / size < page.getD 1 - 1 then greatest / size else page.getD 1 - 1).toInt + 1 := by
  have skipped := toInt_skipped page later
  have most := toInt_greatest_div positive
  have nonneg := mostBefore_nonneg positive
  obtain ⟨-, high⟩ := fitsWord_toInt (page.getD 1)
  rw [Int64.le_iff_toInt_le, Int64.toInt_one] at later
  apply toInt_add_of_fits
  rw [Int64.toInt_one]
  split_ifs with held <;> rw [Int64.lt_iff_toInt_lt, most, skipped] at held
  · exact ⟨by omega, by omega⟩
  · exact ⟨by omega, by omega⟩

include enabled

theorem pageSize_ofRequest : (ofRequest p page pageSize).pageSize = p.clampSize pageSize := by
  simp [ofRequest, enabled]

theorem limit_ofRequest : (ofRequest p page pageSize).limit = some (p.clampSize pageSize) := by
  simp [ofRequest, enabled]

theorem offset_ofRequest :
    (ofRequest p page pageSize).offset = ((ofRequest p page pageSize).page - 1) * p.clampSize pageSize := by
  simp [ofRequest, enabled]

theorem page_ofRequest :
    (ofRequest p page pageSize).page
      = if page.getD 1 ≤ 1 then 1
        else (if greatest / p.clampSize pageSize < page.getD 1 - 1 then greatest / p.clampSize pageSize
          else page.getD 1 - 1) + 1 := by
  simp [ofRequest, enabled]

/-- A page number is at least one, and held back by the number of whole pages that may come before it. -/
theorem toInt_page :
    (ofRequest p page pageSize).page.toInt
      = max 1 (min (page.getD 1).toInt (mostBefore (p.clampSize pageSize).toInt + 1)) := by
  have positive := p.one_le_clampSize pageSize
  have most := toInt_greatest_div positive
  have nonneg := mostBefore_nonneg positive
  rw [page_ofRequest enabled]
  by_cases first : page.getD 1 ≤ 1
  · rw [if_pos first, Int64.toInt_one]
    rw [Int64.le_iff_toInt_le, Int64.toInt_one] at first
    omega
  · rw [if_neg first, toInt_number page first positive]
    have skipped := toInt_skipped page first
    rw [Int64.le_iff_toInt_le, Int64.toInt_one] at first
    split_ifs with held <;> rw [Int64.lt_iff_toInt_lt, most, skipped] at held <;> omega

theorem one_le_page : 1 ≤ (ofRequest p page pageSize).page.toInt := by
  rw [toInt_page enabled]
  exact le_max_left _ _

theorem toInt_before :
    ((ofRequest p page pageSize).page - 1).toInt = (ofRequest p page pageSize).page.toInt - 1 := by
  have least := one_le_page enabled page pageSize
  obtain ⟨-, high⟩ := fitsWord_toInt (ofRequest p page pageSize).page
  exact toInt_sub_of_fits ⟨by rw [Int64.toInt_one]; omega, by rw [Int64.toInt_one]; omega⟩

/-- The rows before a page are those of the whole pages before it. -/
theorem toInt_offset :
    (ofRequest p page pageSize).offset.toInt
      = ((ofRequest p page pageSize).page.toInt - 1) * (p.clampSize pageSize).toInt := by
  have positive := p.one_le_clampSize pageSize
  have before := toInt_before enabled page pageSize
  have least := one_le_page enabled page pageSize
  have held : (ofRequest p page pageSize).page.toInt - 1 ≤ mostBefore (p.clampSize pageSize).toInt := by
    have nonneg := mostBefore_nonneg positive
    rw [toInt_page enabled]
    omega
  have low : 0 ≤ ((ofRequest p page pageSize).page.toInt - 1) * (p.clampSize pageSize).toInt :=
    mul_nonneg (by omega) (by omega)
  have high : ((ofRequest p page pageSize).page.toInt - 1) * (p.clampSize pageSize).toInt ≤ 9223372036854775807 :=
    (mul_le_mul_of_nonneg_right held (by omega)).trans (mostBefore_mul_le positive)
  rw [offset_ofRequest enabled, toInt_mul_of_fits (by rw [before]; exact ⟨by omega, high⟩), before]

/-! ## Every result on the way -/

theorem checked?_eq : checked? p page pageSize = some (ofRequest p page pageSize) := by
  have positive := p.one_le_clampSize pageSize
  have divisor : p.clampSize pageSize ≠ 0 := by
    intro zero
    rw [zero] at positive
    exact absurd positive (by decide)
  have quotient : (greatest / p.clampSize pageSize).toInt = greatest.toInt.tdiv (p.clampSize pageSize).toInt := by
    rw [toInt_greatest_div positive, Int.tdiv_eq_ediv_of_nonneg (by decide)]
    rfl
  have number : checkedPage? (page.getD 1) (greatest / p.clampSize pageSize)
      = some (ofRequest p page pageSize).page := by
    rw [page_ofRequest enabled, checkedPage?]
    by_cases first : page.getD 1 ≤ 1
    · rw [if_pos first, if_pos first]
    · rw [if_neg first, if_neg first, word?_eq_some (toInt_skipped page first)]
      exact word?_eq_some (toInt_number page first positive)
  have before := toInt_before enabled page pageSize
  have offset : (ofRequest p page pageSize).offset.toInt
      = ((ofRequest p page pageSize).page - 1).toInt * (p.clampSize pageSize).toInt := by
    rw [toInt_offset enabled, before]
  have made : ofRequest p page pageSize
      = { page := (ofRequest p page pageSize).page, pageSize := p.clampSize pageSize
          limit := some (p.clampSize pageSize), offset := (ofRequest p page pageSize).offset } := by
    simp [ofRequest, enabled]
  simp only [checked?, Option.bind_eq_bind, if_neg divisor, word?_eq_some quotient, Option.bind_some, number,
    word?_eq_some before, word?_eq_some offset]
  exact congrArg some made.symm

/-! ## The rows of a page -/

theorem bounded_ofRequest : Bounded p (ofRequest p page pageSize) where
  one_le_size := by
    rw [pageSize_ofRequest enabled]
    exact p.one_le_clampSize pageSize
  size_le := by
    rw [pageSize_ofRequest enabled, Pagination.toInt_clampSize]
    omega
  limit := by rw [limit_ofRequest enabled, pageSize_ofRequest enabled]
  one_le_page := one_le_page enabled page pageSize
  offset := by rw [toInt_offset enabled, pageSize_ofRequest enabled]

/-- The page of a row is told by how many whole pages there are before the row. -/
theorem holds_iff {row : Int} :
    (ofRequest p page pageSize).Holds row
      ↔ (ofRequest p page pageSize).page.toInt = row / (p.clampSize pageSize).toInt + 1 := by
  have positive := p.one_le_clampSize pageSize
  have within : (ofRequest p page pageSize).Holds row
      ↔ (ofRequest p page pageSize).page.toInt - 1 ≤ row / (p.clampSize pageSize).toInt
        ∧ row / (p.clampSize pageSize).toInt < (ofRequest p page pageSize).page.toInt := by
    have next : ((ofRequest p page pageSize).page.toInt - 1) * (p.clampSize pageSize).toInt
        + (p.clampSize pageSize).toInt = (ofRequest p page pageSize).page.toInt * (p.clampSize pageSize).toInt := by
      ring
    unfold Holds
    rw [limit_ofRequest enabled, toInt_offset enabled, Int.le_ediv_iff_mul_le (by omega),
      Int.ediv_lt_iff_lt_mul (by omega), ← next]
    constructor
    · rintro ⟨_, ⟨⟩, from', upTo⟩
      exact ⟨from', upTo⟩
    · rintro ⟨from', upTo⟩
      exact ⟨_, rfl, from', upTo⟩
  rw [within]
  omega

omit enabled page in
/-- As many whole pages as asked for come before a page just if their rows can be counted. -/
theorem mostBefore_lt_iff {skipped : Int} :
    mostBefore (p.clampSize pageSize).toInt < skipped
      ↔ 9223372036854775807 < skipped * (p.clampSize pageSize).toInt :=
  Int.ediv_lt_iff_lt_mul (p.one_le_clampSize pageSize)

/-- The number of a page is another than the one asked for just if that is below one or the rows before the page would
not fit. -/
theorem page_ne_iff {asked : Int64} :
    (ofRequest p (some asked) pageSize).page ≠ asked
      ↔ asked.toInt < 1
        ∨ 9223372036854775807 < (asked.toInt - 1) * (ofRequest p (some asked) pageSize).pageSize.toInt := by
  have nonneg := mostBefore_nonneg (p.one_le_clampSize pageSize)
  have number := toInt_page enabled (some asked) pageSize
  rw [Option.getD_some] at number
  rw [pageSize_ofRequest enabled, ← mostBefore_lt_iff, ne_eq, ← Int64.toInt_inj, number]
  omega

/-- Each row but the last possible is on one page, whose number is served as it is asked for. -/
theorem existsUnique_page {row : Int} (first : 0 ≤ row) (last : row < 9223372036854775807) :
    ∃! number : Int64, (ofRequest p (some number) pageSize).page = number
      ∧ ∀ page, (ofRequest p page pageSize).Holds row ↔ (ofRequest p page pageSize).page = number := by
  have positive := p.one_le_clampSize pageSize
  have below : row / (p.clampSize pageSize).toInt ≤ row := Int.ediv_le_self _ first
  have above : 0 ≤ row / (p.clampSize pageSize).toInt := Int.ediv_nonneg first (by omega)
  have few : row / (p.clampSize pageSize).toInt ≤ mostBefore (p.clampSize pageSize).toInt :=
    Int.ediv_le_ediv (by omega) last.le
  have value : (Int64.ofInt (row / (p.clampSize pageSize).toInt + 1)).toInt
      = row / (p.clampSize pageSize).toInt + 1 :=
    toInt_ofInt_of_fits ⟨by omega, by omega⟩
  generalize Int64.ofInt (row / (p.clampSize pageSize).toInt + 1) = number at value
  have served : (ofRequest p (some number) pageSize).page = number := by
    rw [← Int64.toInt_inj, toInt_page enabled, Option.getD_some, value]
    omega
  have holds (page : Option Int64) :
      (ofRequest p page pageSize).Holds row ↔ (ofRequest p page pageSize).page = number := by
    rw [holds_iff enabled, ← value, Int64.toInt_inj]
  refine ⟨number, ⟨served, holds⟩, ?_⟩
  rintro other ⟨-, holds'⟩
  have found := (holds' (some number)).mp ((holds (some number)).mpr served)
  rw [served] at found
  exact found.symm

/-- Pages tile the rows, whatever the bounds of the page size are and whichever size is asked for: no result on the
way to a window leaves 64 bits, a page number that is not served as asked for is below one or has more rows before it
than can be counted, and each row but the last possible is on one page. -/
theorem tiles (pageSize : Option Int64) :
    (∀ page, checked? p page pageSize = some (ofRequest p page pageSize)
      ∧ Bounded p (ofRequest p page pageSize))
    ∧ (∀ asked : Int64, (ofRequest p (some asked) pageSize).page ≠ asked
      ↔ asked.toInt < 1
        ∨ 9223372036854775807 < (asked.toInt - 1) * (ofRequest p (some asked) pageSize).pageSize.toInt)
    ∧ ∀ row : Int, 0 ≤ row → row < 9223372036854775807 →
      ∃! number : Int64, (ofRequest p (some number) pageSize).page = number
        ∧ ∀ page, (ofRequest p page pageSize).Holds row ↔ (ofRequest p page pageSize).page = number :=
  ⟨fun page => ⟨checked?_eq enabled page pageSize, bounded_ofRequest enabled page pageSize⟩,
    fun _ => page_ne_iff enabled pageSize, fun _ => existsUnique_page enabled pageSize⟩

end Numbers

/-- The greatest page number there is, with three rows on a page, is held back to the last page before which the rows
can be counted; the row before the last possible one is on that page alone. -/
theorem tiles_greatest :
    ({} : Pagination).enabled = true
      ∧ checked? {} (some 9223372036854775807) (some 3)
        = some { page := 3074457345618258603, pageSize := 3, limit := some 3, offset := 9223372036854775806 }
      ∧ ∀ page, (ofRequest {} page (some 3)).Holds 9223372036854775806
        ↔ (ofRequest {} page (some 3)).page = 3074457345618258603 := by
  obtain ⟨windows, -, rows⟩ := tiles (p := {}) rfl (some 3)
  obtain ⟨number, ⟨-, holds⟩, -⟩ := rows 9223372036854775806 (by decide) (by decide)
  have here : (ofRequest {} (some 9223372036854775807) (some 3)).Holds 9223372036854775806 := ⟨3, by decide⟩
  obtain rfl : 3074457345618258603 = number := (holds _).mp here
  exact ⟨rfl, (windows _).1, holds⟩

end Window

end TableQuery

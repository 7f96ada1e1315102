import Mathlib
import TableQuery.Proofs.Json.Members
import TableQuery.Proofs.Statement.Keyset
import TableQuery.Proofs.Statement.Window
import TableQuery.Proofs.Validation.Reference

/-!
# Sums of the page size

A page by cursor fetches one row more than it holds, and a response of numbered pages says how many pages there are:
the rows in all, filled up by the page size less one, over the page size. A validated description has page sizes from
one on, and nothing but the greatest 64-bit integer holds them from above. So both sums may leave 64 bits.

`Window.checkedPages?` goes the way of the second sum, and gives up where a result would not fit.

## What is proved

`Table.page_sums_iff`: for every validated description, every requested page size and every number of rows, the sums
that are exact, and those that fit 64 bits on the way.
-/

namespace TableQuery

/-! ## The number of pages -/

/-- An integer over a positive one, rounded up by filling up the dividend. -/
theorem ediv_eq_ceil {total size : Int} (positive : 1 ≤ size) :
    (total + size - 1) / size = ⌈(total : ℚ) / size⌉ := by
  have exact : size * ((total + size - 1) / size) + (total + size - 1) % size = total + size - 1 :=
    Int.mul_ediv_add_emod _ _
  have low : 0 ≤ (total + size - 1) % size := Int.emod_nonneg _ (by omega)
  have high : (total + size - 1) % size < size := Int.emod_lt_of_pos _ (by omega)
  have divisor : (0 : ℚ) < size := by exact_mod_cast positive
  generalize (total + size - 1) / size = quotient at exact ⊢
  generalize (total + size - 1) % size = rest at exact low high
  symm
  rw [Int.ceil_eq_iff, lt_div_iff₀ divisor, div_le_iff₀ divisor]
  have below : (quotient - 1) * size < total := by linarith
  have above : total ≤ quotient * size := by linarith
  exact ⟨by exact_mod_cast below, by exact_mod_cast above⟩

namespace Window

/-- The number of pages, if each result on the way fits 64 bits and the divisor is not zero. -/
def checkedPages? (size total : Int64) : Option Int64 := do
  let sum ← word? (total.toInt + size.toInt)
  let filled ← word? (sum.toInt - 1)
  if size = 0 then none else word? (filled.toInt.tdiv size.toInt)

section Pages

variable {size total : Int64} (positive : 1 ≤ size.toInt) (counted : 0 ≤ total.toInt)
include positive counted

/-- The dividend where it fits, also where the sum before the subtraction does not. -/
theorem toInt_filled (fits : total.toInt + size.toInt - 1 ≤ 9223372036854775807) :
    (total + size - 1).toInt = total.toInt + size.toInt - 1 := by
  have one : (1 : Int64).toInt = 1 := rfl
  have sum : total + size - 1 = total + (size - 1) := by
    rw [Int64.sub_eq_add_neg, Int64.sub_eq_add_neg, Int64.add_assoc]
  obtain ⟨-, bound⟩ := fitsWord_toInt size
  have before : (size - 1).toInt = size.toInt - 1 :=
    toInt_sub_of_fits (by rw [one]; exact ⟨by omega, by omega⟩)
  rw [sum, toInt_add_of_fits (by rw [before]; exact ⟨by omega, by omega⟩), before]
  omega

/-- Beyond 64 bits the dividend is negative. -/
theorem toInt_filled_of_beyond (beyond : 9223372036854775807 < total.toInt + size.toInt - 1) :
    (total + size - 1).toInt = total.toInt + size.toInt - 1 - 18446744073709551616 := by
  obtain ⟨-, size_le⟩ := fitsWord_toInt size
  obtain ⟨-, total_le⟩ := fitsWord_toInt total
  have one : (1 : Int64).toInt = 1 := rfl
  have sum : (total + size - 1).toInt = (total.toInt + size.toInt - 1).bmod 18446744073709551616 := by
    rw [Int64.toInt_sub, Int64.toInt_add, one]
    exact Int.bmod_sub_bmod
  rw [sum, Int.bmod_def, Int.emod_eq_of_lt (by omega) (by omega), if_neg (by omega)]
  rfl

theorem toInt_pages (fits : total.toInt + size.toInt - 1 ≤ 9223372036854775807) :
    ((total + size - 1) / size).toInt = ⌈(total.toInt : ℚ) / size.toInt⌉ := by
  have filled := toInt_filled positive counted fits
  rw [toInt_div_of_pos (by omega) (by omega), filled, ediv_eq_ceil positive]

/-- A negative dividend gives no positive number of pages. -/
theorem toInt_pages_of_beyond (beyond : 9223372036854775807 < total.toInt + size.toInt - 1) :
    ((total + size - 1) / size).toInt ≤ 0 := by
  obtain ⟨-, size_le⟩ := fitsWord_toInt size
  obtain ⟨-, total_le⟩ := fitsWord_toInt total
  have filled := toInt_filled_of_beyond positive counted beyond
  have opposite : (total + size - 1).toInt.tdiv size.toInt = -(-(total + size - 1).toInt / size.toInt) := by
    rw [← Int.tdiv_eq_ediv_of_nonneg (by omega), Int.neg_tdiv, neg_neg]
  have low : 0 ≤ -(total + size - 1).toInt / size.toInt := Int.ediv_nonneg (by omega) (by omega)
  have high : -(total + size - 1).toInt / size.toInt ≤ -(total + size - 1).toInt := Int.ediv_le_self _ (by omega)
  have fits : FitsWord ((total + size - 1).toInt.tdiv size.toInt) := by
    rw [opposite]
    exact ⟨by omega, by omega⟩
  have quotient : ((total + size - 1) / size).toInt = (total + size - 1).toInt.tdiv size.toInt :=
    (Int64.toInt_div _ _).trans (bmod_of_fits fits)
  rw [quotient, opposite]
  omega

/-- The number of pages is exact just if the dividend fits 64 bits. -/
theorem toInt_pages_iff :
    ((total + size - 1) / size).toInt = ⌈(total.toInt : ℚ) / size.toInt⌉
      ↔ total.toInt + size.toInt - 1 ≤ 9223372036854775807 := by
  refine ⟨fun value => ?_, toInt_pages positive counted⟩
  by_contra beyond
  rw [not_le] at beyond
  obtain ⟨-, bound⟩ := fitsWord_toInt size
  have least := toInt_pages_of_beyond positive counted beyond
  have some : (0 : ℚ) < (total.toInt : ℚ) / size.toInt :=
    div_pos (by exact_mod_cast (by omega : 0 < total.toInt)) (by exact_mod_cast positive)
  have more : 0 < ⌈(total.toInt : ℚ) / size.toInt⌉ := Int.ceil_pos.mpr some
  omega

/-- No result on the way leaves 64 bits just if the sum of the rows and the page size does not. -/
theorem checkedPages?_iff :
    checkedPages? size total = some ((total + size - 1) / size)
      ↔ total.toInt + size.toInt ≤ 9223372036854775807 := by
  unfold checkedPages?
  constructor
  · intro whole
    by_contra beyond
    have none : word? (total.toInt + size.toInt) = none := if_neg fun fits => beyond fits.2
    rw [none] at whole
    cases whole
  · intro fits
    have sum : (total + size).toInt = total.toInt + size.toInt := toInt_add_of_fits ⟨by omega, fits⟩
    have filled := toInt_filled positive counted (by omega)
    have divisor : size ≠ 0 := by
      rintro rfl
      exact absurd positive (by decide)
    have quotient : ((total + size - 1) / size).toInt = (total + size - 1).toInt.tdiv size.toInt := by
      rw [toInt_div_of_pos (by omega) (by omega), Int.tdiv_eq_ediv_of_nonneg (by omega)]
    have less : (total + size - 1).toInt = (total + size).toInt - 1 := by rw [filled, sum]
    simp only [Option.bind_eq_bind, word?_eq_some sum, Option.bind_some, word?_eq_some less, if_neg divisor,
      word?_eq_some quotient]

end Pages

theorem nodup_metaNames : (["total", "page", "pageSize", "totalPages"] : List Bytes).Nodup := by decide

/-- A response of numbered pages says how many there are. -/
theorem get?_totalPages {p : Pagination} (enabled : p.enabled = true) (page pageSize : Option Int64) (total : Int64) :
    ((ofRequest p page pageSize).toMeta total).get? "totalPages"
      = some (.ofInt64 ((total + p.clampSize pageSize - 1) / p.clampSize pageSize)) := by
  have on : (ofRequest p page pageSize).enabled = true := by simp [ofRequest, enabled]
  have some : 0 < p.clampSize pageSize := Int64.lt_iff_toInt_lt.mpr (p.one_le_clampSize pageSize)
  unfold toMeta
  rw [on, pageSize_ofRequest enabled, if_pos some]
  exact Json.get?_record nodup_metaNames (by simp)

/-- A response without pages is one page. -/
theorem get?_totalPages_of_unpaged {p : Pagination} (disabled : p.enabled = false) (page pageSize : Option Int64)
    (total : Int64) : ((ofRequest p page pageSize).toMeta total).get? "totalPages" = some (.int 1) := by
  unfold ofRequest
  rw [disabled]
  exact Json.get?_record nodup_metaNames (by simp)

end Window

/-! ## Both sums of a validated description -/

namespace Table

variable {t : Table} {catalog : Option Catalog}

/-- A validated description holds every page size within one and its greatest size. The row beyond a page is counted
exactly but for pages of the greatest 64-bit size; the number of pages is exact just if the rows in all and the page
size less one fit 64 bits together, and no result on the way leaves 64 bits just if the rows and the page size do. -/
theorem page_sums_iff (valid : t.validate catalog = .ok ()) (pageSize : Option Int64) :
    let size := t.pagination.clampSize pageSize
    (1 ≤ size.toInt ∧ size.toInt ≤ t.pagination.maxPageSize.toInt)
    ∧ (∀ r cursor requested k, r.table.pagination = t.pagination →
        Keyset.ofRequest r cursor pageSize requested = .ok k →
        k.pageSize = size
          ∧ (word? (size.toInt + 1) = some k.fetchLimit ↔ size.toInt < 9223372036854775807))
    ∧ (∀ page total, t.pagination.enabled = true → 0 ≤ total.toInt →
        ∃ pages, ((Window.ofRequest t.pagination page pageSize).toMeta total).get? "totalPages" = some (.ofInt64 pages)
          ∧ (pages.toInt = ⌈(total.toInt : ℚ) / size.toInt⌉ ↔ total.toInt + size.toInt - 1 ≤ 9223372036854775807)
          ∧ (Window.checkedPages? size total = some pages ↔ total.toInt + size.toInt ≤ 9223372036854775807))
    ∧ ∀ page total, t.pagination.enabled = false →
        ((Window.ofRequest t.pagination page pageSize).toMeta total).get? "totalPages" = some (.int 1) := by
  intro size
  have positive : 1 ≤ size.toInt := t.pagination.one_le_clampSize pageSize
  obtain ⟨usual, greatest⟩ := pageSizes_of_validate valid
  have bounded : size.toInt ≤ t.pagination.maxPageSize.toInt := by
    rw [Int64.le_iff_toInt_le, Int64.toInt_one] at usual
    rw [Int64.le_iff_toInt_le] at greatest
    rw [t.pagination.toInt_clampSize]
    omega
  refine ⟨⟨positive, bounded⟩, ?_, ?_, ?_⟩
  · intro r cursor requested k paging made
    obtain ⟨sized, limit⟩ := Keyset.sizes_of_ofRequest made
    rw [paging] at sized
    exact ⟨sized, by rw [word?_eq_some_iff, limit, sized, toInt_add_one_iff]⟩
  · intro page total enabled counted
    exact ⟨_, Window.get?_totalPages enabled page pageSize total, Window.toInt_pages_iff positive counted,
      Window.checkedPages?_iff positive counted⟩
  · intro page total disabled
    exact Window.get?_totalPages_of_unpaged disabled page pageSize total

/-- A table whose pages may have any size. -/
def archive : Table where
  name := "entries"
  base := "entries"
  columns := [{ name := "id", type := .number }]
  pagination := { maxPageSize := 9223372036854775807 }

/-- Pages of the greatest size: the row beyond a page cannot be counted, and two rows are said to be on minus one
page. -/
theorem page_sums_iff_archive :
    archive.validate none = .ok ()
      ∧ (∀ r k, r.table.pagination = archive.pagination →
          Keyset.ofRequest r none (some 9223372036854775807) [] = .ok k →
          word? 9223372036854775808 ≠ some k.fetchLimit)
      ∧ ((Window.ofRequest archive.pagination none (some 9223372036854775807)).toMeta 2).get? "totalPages"
          = some (.int (-1))
      ∧ (-1 : Int64).toInt ≠ ⌈((2 : Int64).toInt : ℚ) / (9223372036854775807 : Int64).toInt⌉ := by
  have valid : archive.validate none = .ok () := rfl
  obtain ⟨-, limits, totals, -⟩ := page_sums_iff valid (some 9223372036854775807)
  refine ⟨valid, ?_, rfl, ?_⟩
  · intro r k paging made exact
    exact absurd ((limits r none [] k paging made).2.mp exact) (by decide)
  · obtain ⟨pages, told, value, -⟩ := totals none 2 rfl (by decide)
    have minus : pages = -1 := by
      rw [← Int64.toInt_inj]
      exact (Json.int.inj (Option.some.inj told)).symm
    rw [minus] at value
    exact fun exact => absurd (value.mp exact) (by decide)

end Table

end TableQuery

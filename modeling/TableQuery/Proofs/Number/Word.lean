import Mathlib.Tactic.Linarith
import Mathlib.Tactic.NormNum

/-!
# Integers in 64 bits

A 64-bit word is an integer in a range, and its arithmetic is that of integers as long as the results stay in the
range: `toInt_add_of_fits`, `toInt_sub_of_fits`, `toInt_mul_of_fits` and `toInt_div_of_pos`. `word?` is the word of
an integer that fits, so a computation in `Option` by way of `word?` fails at the first result that does not.
-/

namespace TableQuery

/-- An integer fits 64 bits. -/
def FitsWord (n : Int) : Prop := -9223372036854775808 ≤ n ∧ n ≤ 9223372036854775807

instance (n : Int) : Decidable (FitsWord n) := inferInstanceAs (Decidable (_ ∧ _))

/-- The word of an integer that fits. -/
def word? (n : Int) : Option Int64 := if FitsWord n then some (.ofInt n) else none

theorem fitsWord_toInt (a : Int64) : FitsWord a.toInt := ⟨a.le_toInt, Int.le_of_lt_add_one a.toInt_lt⟩

theorem bmod_of_fits {n : Int} (fits : FitsWord n) : n.bmod 18446744073709551616 = n := by
  obtain ⟨low, high⟩ := fits
  apply Int.bmod_eq_of_le <;> omega

theorem toInt_ofInt_of_fits {n : Int} (fits : FitsWord n) : (Int64.ofInt n).toInt = n :=
  Int64.toInt_ofInt.trans (bmod_of_fits fits)

theorem toInt_ofInt_iff {n : Int} : (Int64.ofInt n).toInt = n ↔ FitsWord n := by
  constructor
  · intro same
    exact same ▸ fitsWord_toInt _
  · exact toInt_ofInt_of_fits

theorem toInt_ofIntClamp_eq (n : Int) :
    (Int64.ofIntClamp n).toInt = max (-9223372036854775808) (min n 9223372036854775807) := by
  unfold Int64.ofIntClamp
  split_ifs with low high
  · rw [Int64.toInt_ofIntLE]
    rw [Int64.toInt_minValue] at low
    rw [Int64.toInt_maxValue] at high
    omega
  · rw [Int64.toInt_maxValue] at high ⊢
    omega
  · rw [Int64.toInt_minValue] at low ⊢
    omega

theorem toInt_ofIntClamp_iff {n : Int} : (Int64.ofIntClamp n).toInt = n ↔ FitsWord n := by
  rw [toInt_ofIntClamp_eq]
  unfold FitsWord
  omega

theorem word?_eq_some {a : Int64} {n : Int} (value : a.toInt = n) : word? n = some a := by
  rw [← value, word?, if_pos (fitsWord_toInt a), Int64.ofInt_toInt]

/-- The word of an integer, just if the word has its value. -/
theorem word?_eq_some_iff {a : Int64} {n : Int} : word? n = some a ↔ a.toInt = n := by
  refine ⟨fun word => ?_, word?_eq_some⟩
  unfold word? at word
  split_ifs at word with fits
  cases word
  exact toInt_ofInt_of_fits fits

section Exact

variable {a b : Int64}

theorem toInt_add_of_fits (fits : FitsWord (a.toInt + b.toInt)) : (a + b).toInt = a.toInt + b.toInt :=
  (Int64.toInt_add a b).trans (bmod_of_fits fits)

theorem toInt_sub_of_fits (fits : FitsWord (a.toInt - b.toInt)) : (a - b).toInt = a.toInt - b.toInt :=
  (Int64.toInt_sub a b).trans (bmod_of_fits fits)

theorem toInt_mul_of_fits (fits : FitsWord (a.toInt * b.toInt)) : (a * b).toInt = a.toInt * b.toInt :=
  (Int64.toInt_mul a b).trans (bmod_of_fits fits)

/-- The integer after a word is a word, but for the greatest. -/
theorem toInt_add_one_iff : (a + 1).toInt = a.toInt + 1 ↔ a.toInt < 9223372036854775807 := by
  obtain ⟨low, high⟩ := fitsWord_toInt a
  constructor
  · intro sum
    obtain ⟨-, bound⟩ := fitsWord_toInt (a + 1)
    omega
  · intro below
    have one : (1 : Int64).toInt = 1 := rfl
    rw [toInt_add_of_fits (by rw [one]; exact ⟨by omega, by omega⟩), one]

/-- Division by a positive number leaves 64 bits nowhere; of a number that is not negative it goes down. -/
theorem toInt_div_of_pos (dividend : 0 ≤ a.toInt) (divisor : 0 < b.toInt) : (a / b).toInt = a.toInt / b.toInt := by
  have quotient : a.toInt.tdiv b.toInt = a.toInt / b.toInt := Int.tdiv_eq_ediv_of_nonneg dividend
  have low : 0 ≤ a.toInt / b.toInt := Int.ediv_nonneg dividend divisor.le
  have high : a.toInt / b.toInt ≤ a.toInt := Int.ediv_le_self _ dividend
  have fits : FitsWord (a.toInt.tdiv b.toInt) := by
    obtain ⟨-, bound⟩ := fitsWord_toInt a
    rw [quotient]
    constructor <;> omega
  rw [← quotient]
  exact (Int64.toInt_div a b).trans (bmod_of_fits fits)

end Exact

end TableQuery

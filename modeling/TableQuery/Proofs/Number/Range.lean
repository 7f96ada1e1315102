import Mathlib.Data.Nat.Log
import Mathlib.Tactic.Linarith
import Mathlib.Tactic.NormNum
import Mathlib.Tactic.Positivity
import Mathlib.Tactic.Ring
import TableQuery.Proofs.Number.Layout

/-!
# The range of doubles

An integer is rounded to 53 bits, and is beyond all doubles if that takes an exponent above the greatest. The least
such integer lies half a unit above the greatest double: of the two neighbours the even one is the power of two, which
is no double any more.

A text of an optional sign and decimal digits denotes an integer, and has a double unless the integer is beyond them.

## What is proved

`Binary64.ofRatio?_whole_eq_none_iff`: which integers round to no double.
`Numeral.Denotes.double?_eq_none_iff`: which texts of an integer have no double.
-/

namespace TableQuery

/-- A quotient is rounded up to an even integer from half way on. -/
theorem roundDiv_eq_succ_iff {num den q : Nat} (below : num < (q + 1) * den) (odd : q % 2 = 1) :
    roundDiv num den = q + 1 ↔ (2 * q + 1) * den ≤ 2 * num := by
  have split : den * (num / den) + num % den = num := Nat.div_add_mod num den
  have positive : 0 < den := by
    by_contra zero
    simp [Nat.eq_zero_of_not_pos zero] at below
  have rest : num % den < den := Nat.mod_lt num positive
  have most : num / den ≤ q := Nat.le_of_lt_succ ((Nat.div_lt_iff_lt_mul positive).mpr below)
  unfold roundDiv
  dsimp only
  rcases most.eq_or_lt with same | less
  · rw [same] at split ⊢
    have expand : (2 * q + 1) * den = 2 * (den * q) + den := by ring
    rw [expand, if_congr (Iff.rfl) rfl rfl]
    split_ifs with up <;> omega
  · have few : den * (num / den) + den ≤ den * q := by
      rw [← Nat.mul_succ]
      exact Nat.mul_le_mul_left den less
    have expand : (2 * q + 1) * den = 2 * (den * q) + den := by ring
    rw [expand]
    split_ifs with up <;> omega

/-- Rounding leaves the bounds of a quotient that are integers. -/
theorem roundDiv_bounds {num den low high : Nat} (positive : 0 < den) (above : low * den ≤ num)
    (below : num < high * den) : low ≤ roundDiv num den ∧ roundDiv num den ≤ high := by
  have least : low ≤ num / den := (Nat.le_div_iff_mul_le positive).mpr above
  have most : num / den < high := (Nat.div_lt_iff_lt_mul positive).mpr below
  unfold roundDiv
  dsimp only
  split_ifs <;> omega

namespace Binary64

/-- Half the distance between the greatest doubles. -/
def halfUnit : Nat := 2 ^ 970

/-- The least integer that is beyond all doubles. -/
def leastBeyond : Nat := (2 ^ 54 - 1) * halfUnit

theorem halfUnit_pos : 0 < halfUnit := pow_pos two_pos 970

theorem leastBeyond_pos : 0 < leastBeyond := Nat.mul_pos (by decide) halfUnit_pos

theorem pow_add_eq_halfUnit (k : Nat) : 2 ^ (970 + k) = 2 ^ k * halfUnit := by
  rw [halfUnit, Nat.add_comm, pow_add]

theorem shiftLeft_eq_halfUnit (k : Nat) : 1 <<< (970 + k) = 2 ^ k * halfUnit := by
  rw [Nat.shiftLeft_eq, Nat.one_mul, pow_add_eq_halfUnit]

theorem log2_lt_iff_halfUnit {n : Nat} (nonzero : n ≠ 0) (k : Nat) : n.log2 < 970 + k ↔ n < 2 ^ k * halfUnit := by
  rw [Nat.log2_lt nonzero, pow_add_eq_halfUnit]

/-- An integer with its bits moved to the 53 of a mantissa, over the power of two that is left. -/
theorem mantissa_bounds {n : Nat} (nonzero : n ≠ 0) :
    leastFull * (1 <<< (n.log2 - 52)) ≤ n <<< (52 - n.log2)
      ∧ n <<< (52 - n.log2) < 2 * leastFull * (1 <<< (n.log2 - 52)) := by
  have moved : leastFull * 2 ^ (n.log2 - 52) = 2 ^ n.log2 * 2 ^ (52 - n.log2) := by
    rw [show leastFull = 2 ^ 52 from rfl, ← Nat.pow_add, ← Nat.pow_add]
    congr 1
    omega
  rw [Nat.shiftLeft_eq, Nat.shiftLeft_eq, Nat.one_mul]
  constructor
  · calc leastFull * 2 ^ (n.log2 - 52) = 2 ^ n.log2 * 2 ^ (52 - n.log2) := moved
      _ ≤ n * 2 ^ (52 - n.log2) := Nat.mul_le_mul_right _ (Nat.log2_self_le nonzero)
  · calc n * 2 ^ (52 - n.log2) < 2 ^ (n.log2 + 1) * 2 ^ (52 - n.log2) :=
        Nat.mul_lt_mul_of_pos_right Nat.lt_log2_self (Nat.two_pow_pos _)
      _ = 2 * leastFull * 2 ^ (n.log2 - 52) := by rw [Nat.pow_succ', Nat.mul_assoc, Nat.mul_assoc, moved]

/-- The shifts by which an integer of so many bits gets 53. -/
theorem shifts (bits : Nat) : (-((bits : Int) - 52)).toNat = 52 - bits ∧ ((bits : Int) - 52).toNat = bits - 52 := by
  omega

theorem one_shiftLeft_pos (k : Nat) : 0 < 1 <<< k := by
  rw [Nat.shiftLeft_eq, Nat.one_mul]
  exact Nat.two_pow_pos k

theorem exponentFor_whole {n : Nat} (nonzero : n ≠ 0) : exponentFor 53 n 1 = n.log2 - 52 := by
  have one : Nat.log2 1 = 0 := by decide
  obtain ⟨up, down⟩ := shifts n.log2
  have guess : (n.log2 : Int) - (0 : Nat) - (53 : Nat) + 1 = n.log2 - 52 := by omega
  obtain ⟨low, -⟩ := mantissa_bounds nonzero
  have full : leastFull ≤ n <<< (52 - n.log2) / 1 <<< (n.log2 - 52) :=
    (Nat.le_div_iff_mul_le (one_shiftLeft_pos _)).mpr low
  have enough : 52 ≤ (n <<< (52 - n.log2) / 1 <<< (n.log2 - 52)).log2 :=
    (Nat.le_log2 (by unfold leastFull at full; omega)).mpr full
  unfold exponentFor
  dsimp only
  rw [one, guess, up, down, if_neg (by omega)]

theorem ofParts?_eq_none_iff {negative : Bool} {mantissa : Nat} {exponent : Int} :
    ofParts? negative mantissa exponent = none ↔ ¬Canonical mantissa exponent := by
  unfold ofParts?
  split_ifs with canonical <;> simp [canonical]

/-- An integer rounds to no double if it has too many bits, or if rounding gives it one too many. -/
theorem ofRatio?_whole_eq_none {n : Nat} (nonzero : n ≠ 0) (negative : Bool) :
    ofRatio? negative n 1 = none ↔
      1024 ≤ n.log2
        ∨ n.log2 = 1023 ∧ roundDiv (n <<< (52 - n.log2)) (1 <<< (n.log2 - 52)) = 2 * leastFull := by
  obtain ⟨up, down⟩ := shifts n.log2
  have exponent : roundingExponent n 1 = n.log2 - 52 := by
    unfold roundingExponent
    rw [exponentFor_whole nonzero]
    omega
  obtain ⟨above, below⟩ := mantissa_bounds nonzero
  obtain ⟨low, high⟩ := roundDiv_bounds (one_shiftLeft_pos _) above below
  unfold ofRatio?
  rw [if_neg nonzero]
  dsimp only
  rw [exponent, up, down]
  generalize roundDiv (n <<< (52 - n.log2)) (1 <<< (n.log2 - 52)) = m at low high ⊢
  split_ifs with full
  · rw [ofParts?_eq_none_iff, Canonical]
    unfold leastFull at full ⊢
    omega
  · rw [ofParts?_eq_none_iff, Canonical]
    unfold leastFull at low high full ⊢
    omega

/-- An integer rounds to no double from half a unit above the greatest double on. -/
theorem ofRatio?_whole_eq_none_iff (n : Nat) (negative : Bool) : ofRatio? negative n 1 = none ↔ leastBeyond ≤ n := by
  rcases Nat.eq_zero_or_pos n with rfl | filled
  · have zero : ofRatio? negative 0 1 = some (zero negative) := if_pos rfl
    simp [zero, leastBeyond_pos.ne']
  have nonzero : n ≠ 0 := filled.ne'
  rw [ofRatio?_whole_eq_none nonzero]
  rcases lt_trichotomy n.log2 1023 with fewer | full | more
  · -- the next power of two is not above the greatest double
    have small : n < 2 ^ 53 * halfUnit := (log2_lt_iff_halfUnit nonzero 53).mp fewer
    unfold leastBeyond
    omega
  · -- the integer is rounded up to the next power of two from half a unit below that on
    have bits : n <<< (52 - n.log2) = n := by rw [full]; rfl
    have place : 1 <<< (n.log2 - 52) = 2 * halfUnit := by
      have steps : n.log2 - 52 = 970 + 1 := by omega
      rw [steps, shiftLeft_eq_halfUnit, pow_one]
    have top : 2 * leastFull = (2 * leastFull - 1) + 1 := rfl
    obtain ⟨-, below⟩ := mantissa_bounds nonzero
    rw [bits, place, top] at below
    rw [bits, place, top, roundDiv_eq_succ_iff below (by decide)]
    unfold leastBeyond leastFull
    omega
  · have large : ¬n < 2 ^ 54 * halfUnit := (log2_lt_iff_halfUnit nonzero 54).not.mp (by omega)
    unfold leastBeyond
    omega

/-! ## Integers in decimal digits -/

theorem leastBeyond_le_pow {places : Nat} (many : 310 ≤ places) : leastBeyond ≤ 10 ^ places := by
  have bound : leastBeyond ≤ 10 ^ 310 := by decide +kernel
  exact bound.trans (pow_le_pow_right₀ (by decide) many)

/-- Digits denote a double as far as the integer does. -/
theorem ofDecimal?_whole_eq_none_iff {digits : Bytes} (plain : digits.IsDigits) (negative : Bool) :
    ofDecimal? negative digits 0 = none ↔ leastBeyond ≤ Bytes.digitsValue digits := by
  have value := Bytes.digitsValue_dropWhile_zero digits
  unfold ofDecimal?
  dsimp only
  cases significant : digits.dropWhile (· == Ascii.zero) with
  | nil =>
    have zero : Bytes.digitsValue digits = 0 := value.symm.trans (congrArg Bytes.digitsValue significant)
    simp [zero, leastBeyond_pos.ne']
  | cons b more =>
    have nonzero : b ≠ Ascii.zero := by
      have head := List.head_dropWhile_not (· == Ascii.zero) (l := digits) (by simp [significant])
      simpa [significant] using head
    have digit : Ascii.isDigit b = true :=
      plain b ((List.dropWhile_suffix _).mem (significant ▸ List.mem_cons_self))
    have large := Bytes.pow_le_digitsValue (s := more) digit nonzero
    rw [significant] at value
    rw [← value]
    split_ifs with empty many few
    · cases empty
    · -- more digits than any double has
      have places : 310 ≤ more.length := by
        rw [List.length_cons] at many
        omega
      exact iff_of_true rfl ((leastBeyond_le_pow places).trans large)
    · omega
    · have unit : Nat.pow 10 (0 : Int).toNat = 1 := rfl
      rw [neg_zero, unit, Nat.mul_one]
      exact ofRatio?_whole_eq_none_iff _ negative

end Binary64

namespace Numeral

theorem double?_of_sign {s digits : Bytes} {negative : Bool} (signed : sign s = (negative, digits))
    (plain : digits.IsDigits) (filled : digits ≠ []) : double? s = Binary64.ofDecimal? negative digits 0 := by
  have stops : Stops [] := by rintro b ⟨⟩
  have parts := mantissa?_whole plain filled stops (by rintro after ⟨⟩)
  rw [List.append_nil] at parts
  have decimal : double?.decimal negative digits = Binary64.ofDecimal? negative digits 0 := by
    unfold double?.decimal
    rw [parts]
    simp [exponent?]
  unfold double?
  rw [signed]
  dsimp only
  split
  · next x rest =>
    -- a second digit is not the mark of hexadecimal digits
    have other : (Ascii.toLower x == 0x78) = false :=
      Ascii.forall_isDigit (p := fun b => (Ascii.toLower b == 0x78) = false) (by decide) (plain x (by simp))
    rw [other, if_neg Bool.false_ne_true, decimal]
  · exact decimal

/-- The double of an integer is missing just if the integer is beyond all doubles. -/
theorem Denotes.double?_eq_none_iff {s : Bytes} {n : Int} (denotes : Denotes s n) : double? s = none ↔ Binary64.leastBeyond ≤ n.natAbs := by
  obtain ⟨negative, digits, signed, plain, filled, rfl⟩ := denotes.sign
  rw [double?_of_sign signed plain filled, Binary64.ofDecimal?_whole_eq_none_iff plain]
  cases negative <;> simp

end Numeral

end TableQuery

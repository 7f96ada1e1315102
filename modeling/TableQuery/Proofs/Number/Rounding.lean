import Mathlib.Algebra.Order.Field.Power
import Mathlib.Data.Rat.Cast.Order
import Mathlib.Tactic.FieldSimp
import Mathlib.Tactic.Linarith
import Mathlib.Tactic.Positivity
import Mathlib.Tactic.Ring
import TableQuery.Number.Shortest

/-!
# The shortest decimal of a double

The values that round to a double reach half way to its neighbours, and the ends belong to the double with the even
mantissa. So the ranges of different doubles do not meet, and a decimal in the range of a double is in no other.

## What is proved

`Binary64.rounds_shortest`: the shortest decimal of a double rounds to it.
`Binary64.Rounds.eq`: no value rounds to two magnitudes.
-/

namespace TableQuery

namespace Binary64

/-! ## Values -/

/-- The value of a decimal. -/
def Decimal.value (d : Decimal) : ℚ := d.digits * 10 ^ d.exponent

/-- The value of a double without its sign. -/
def magnitude (x : Binary64) : ℚ := x.mantissa * 2 ^ x.exponent

/-- A power with its negative part moved to the other side. -/
theorem pow_toNat {b : ℚ} (hb : b ≠ 0) (i : Int) : b ^ i.toNat = b ^ i * b ^ (-i).toNat := by
  rw [← zpow_natCast, ← zpow_natCast, ← zpow_add₀ hb]
  congr 1
  omega

/-- Comparing after a positive scaling. -/
theorem compare_of_scaled {p q : Nat} {u v s : ℚ} (positive : 0 < s) (hp : (p : ℚ) = u * s) (hq : (q : ℚ) = v * s) :
    compare p q = compare u v := by
  rcases lt_trichotomy u v with lt | eq | gt
  · rw [compare_lt_iff_lt.mpr lt, compare_lt_iff_lt]
    exact_mod_cast hp ▸ hq ▸ mul_lt_mul_of_pos_right lt positive
  · rw [compare_eq_iff_eq.mpr eq, compare_eq_iff_eq]
    exact_mod_cast hp.trans (eq ▸ hq.symm)
  · rw [compare_gt_iff_gt.mpr gt, compare_gt_iff_gt]
    exact_mod_cast hp ▸ hq ▸ mul_lt_mul_of_pos_right gt positive

theorem compareScaled_eq (a : Nat) (i : Int) (n : Nat) (j : Int) :
    compareScaled a i n j = compare ((a : ℚ) * 10 ^ i) (n * 2 ^ j) := by
  unfold compareScaled
  have tens : (0 : ℚ) < 10 ^ (-i).toNat := by positivity
  have twos : (0 : ℚ) < 2 ^ (-j).toNat := by positivity
  have ten : (10 : ℚ) ≠ 0 := by norm_num
  have two : (2 : ℚ) ≠ 0 := by norm_num
  refine compare_of_scaled (mul_pos tens twos) ?_ ?_
  · rw [Nat.shiftLeft_eq, Nat.pow_eq]
    push_cast
    rw [pow_toNat ten i]
    ring
  · rw [Nat.shiftLeft_eq, Nat.pow_eq]
    push_cast
    rw [pow_toNat two j]
    ring

/-! ## What rounds to a double -/

/-- Whether the neighbour below is half as far away as the one above. -/
def Narrow (x : Binary64) : Prop := x.mantissa = leastFull ∧ -1074 < x.exponent

instance (x : Binary64) : Decidable x.Narrow := inferInstanceAs (Decidable (_ ∧ _))

/-- Four times the least mantissa that rounds to the double. -/
def low (x : Binary64) : Nat := if x.Narrow then 4 * x.mantissa - 1 else 4 * x.mantissa - 2

/-- Four times the greatest mantissa that rounds to the double. -/
def high (x : Binary64) : Nat := 4 * x.mantissa + 2

/-- A value is among those that round to the double's magnitude. -/
structure Rounds (x : Binary64) (v : ℚ) : Prop where
  above : x.low * 2 ^ (x.exponent - 2) ≤ v
  below : v ≤ x.high * 2 ^ (x.exponent - 2)
  ends : v = x.low * 2 ^ (x.exponent - 2) ∨ v = x.high * 2 ^ (x.exponent - 2) → x.mantissa % 2 = 0

theorem rounds_of_readsBack {x : Binary64} {d : Decimal} (h : x.readsBack d = true) : x.Rounds d.value := by
  unfold readsBack at h
  simp only [compareScaled_eq, Bool.and_eq_true, Bool.or_eq_true, beq_iff_eq] at h
  change (compare d.value (x.low * 2 ^ (x.exponent - 2)) = .gt
      ∨ x.mantissa % 2 = 0 ∧ compare d.value (x.low * 2 ^ (x.exponent - 2)) = .eq)
    ∧ (compare d.value (x.high * 2 ^ (x.exponent - 2)) = .lt
      ∨ x.mantissa % 2 = 0 ∧ compare d.value (x.high * 2 ^ (x.exponent - 2)) = .eq) at h
  rw [compare_gt_iff_gt, compare_lt_iff_lt, compare_eq_iff_eq, compare_eq_iff_eq] at h
  obtain ⟨fromLow, fromHigh⟩ := h
  refine ⟨?_, ?_, ?_⟩
  · rcases fromLow with above | ⟨-, same⟩
    · exact above.le
    · exact same.ge
  · rcases fromHigh with below | ⟨-, same⟩
    · exact below.le
    · exact same.le
  · rintro (same | same)
    · exact (fromLow.resolve_left fun above => above.ne same.symm).1
    · exact (fromHigh.resolve_left fun below => below.ne same).1

/-- The value of a double that is not zero is inside its range. -/
theorem rounds_magnitude {x : Binary64} (positive : 0 < x.mantissa) : x.Rounds x.magnitude := by
  have unit : (0 : ℚ) < 2 ^ (x.exponent - 2) := by positivity
  have scaled : x.magnitude = (4 * x.mantissa : Nat) * 2 ^ (x.exponent - 2) := by
    unfold magnitude
    rw [zpow_sub₀ (by norm_num)]
    push_cast
    ring
  have above : x.low < 4 * x.mantissa := by
    unfold low
    split_ifs <;> omega
  have below : 4 * x.mantissa < x.high := by
    unfold high
    omega
  have above' : (x.low : ℚ) * 2 ^ (x.exponent - 2) < x.magnitude := by
    rw [scaled]
    exact mul_lt_mul_of_pos_right (by exact_mod_cast above) unit
  have below' : x.magnitude < x.high * 2 ^ (x.exponent - 2) := by
    rw [scaled]
    exact mul_lt_mul_of_pos_right (by exact_mod_cast below) unit
  exact ⟨above'.le, below'.le, fun ends => absurd ends (not_or.mpr ⟨above'.ne', below'.ne⟩)⟩

theorem Rounds.positive {x : Binary64} {v : ℚ} (h : x.Rounds v) (filled : 0 < x.mantissa) : 0 < v := by
  have unit : (0 : ℚ) < 2 ^ (x.exponent - 2) := by positivity
  have low : 0 < x.low := by
    unfold low
    split_ifs <;> omega
  exact lt_of_lt_of_le (mul_pos (by exact_mod_cast low) unit) h.above

/-! ## Ranges do not meet -/

variable {x y : Binary64} {v : ℚ}

/-- The ends of two ranges in units of the first: where a value is in both, the upper end of the one is not below the
lower end of the other, and if they are the same, both mantissas are even. -/
theorem Rounds.meet (hx : x.Rounds v) (hy : y.Rounds v) {k : Nat} (apart : y.exponent = x.exponent + k) :
    y.low * 2 ^ k ≤ x.high ∧ (x.high ≤ y.low * 2 ^ k → x.mantissa % 2 = 0 ∧ y.mantissa % 2 = 0) := by
  have unit : (0 : ℚ) < 2 ^ (x.exponent - 2) := by positivity
  have scaled : (y.low : ℚ) * 2 ^ (y.exponent - 2) = (y.low * 2 ^ k : Nat) * 2 ^ (x.exponent - 2) := by
    have power : (2 : ℚ) ^ (y.exponent - 2) = 2 ^ k * 2 ^ (x.exponent - 2) := by
      rw [← zpow_natCast, ← zpow_add₀ (by norm_num), apart]
      congr 1
      omega
    rw [power]
    push_cast
    ring
  have above := hy.above
  rw [scaled] at above
  constructor
  · have ordered := le_of_mul_le_mul_right (above.trans hx.below) unit
    exact_mod_cast ordered
  · intro reached
    have reached' : (x.high : ℚ) * 2 ^ (x.exponent - 2) ≤ (y.low * 2 ^ k : Nat) * 2 ^ (x.exponent - 2) :=
      mul_le_mul_of_nonneg_right (by exact_mod_cast reached) unit.le
    refine ⟨hx.ends (.inr ?_), hy.ends (.inl ?_)⟩
    · exact le_antisymm hx.below (reached'.trans above)
    · rw [scaled]
      exact le_antisymm (hx.below.trans reached') above

/-- A value rounds to no greater double. -/
theorem Rounds.not_rounds_of_lt (hx : x.Rounds v) (hy : y.Rounds v) :
    ¬(x.exponent < y.exponent ∨ x.exponent = y.exponent ∧ x.mantissa < y.mantissa) := by
  rintro (less | ⟨same, less⟩)
  · obtain ⟨k, apart⟩ : ∃ k : Nat, y.exponent = x.exponent + (k + 1 : Nat) :=
      ⟨(y.exponent - x.exponent - 1).toNat, by omega⟩
    obtain ⟨cross, ends⟩ := hx.meet hy apart
    have doubled : y.low * 2 ≤ y.low * 2 ^ (k + 1) := by
      rw [Nat.pow_succ']
      exact Nat.mul_le_mul_left _ (Nat.le_mul_of_pos_right 2 (Nat.two_pow_pos k))
    obtain ⟨bound, least, -⟩ := x.canonical
    obtain ⟨-, -, -, full⟩ := y.canonical
    have full : leastFull ≤ y.mantissa := full.resolve_left (by omega)
    have low : 4 * leastFull - 1 ≤ y.low := by
      unfold low
      split_ifs with narrow
      · exact Nat.sub_le_sub_right (Nat.mul_le_mul_left 4 full) 1
      · have wide : y.mantissa ≠ leastFull := fun same => narrow ⟨same, by omega⟩
        omega
    unfold high at cross ends
    have even := (ends (by omega)).1
    omega
  · obtain ⟨cross, ends⟩ := hx.meet hy (k := 0) (by omega)
    have low : 4 * y.mantissa - 2 ≤ y.low := by
      unfold low
      split_ifs <;> omega
    unfold high at cross ends
    obtain ⟨evenX, evenY⟩ := ends (by omega)
    omega

/-- No value rounds to two magnitudes. -/
theorem Rounds.eq (hx : x.Rounds v) (hy : y.Rounds v) : x.mantissa = y.mantissa ∧ x.exponent = y.exponent := by
  have notBelow := hx.not_rounds_of_lt hy
  have notAbove := hy.not_rounds_of_lt hx
  omega

/-! ## The shortest decimal -/

theorem readsBack_of_onGrid? {grid : Int} {d : Decimal} (h : x.onGrid? grid = some d) : x.readsBack d = true := by
  unfold onGrid? at h
  dsimp only at h
  split at h
  · next below above =>
    cases h
    unfold roundDiv
    dsimp only
    split_ifs
    · exact above
    · exact below
  · next below _ =>
    cases h
    exact below
  · next _ above =>
    cases h
    exact above
  · cases h

/-- The exact value as a decimal. -/
theorem value_exact (x : Binary64) :
    Decimal.value ⟨x.num * Nat.pow 5 (-x.exponent).toNat, min x.exponent 0⟩ = x.magnitude := by
  have five : (5 : ℚ) ^ (-x.exponent).toNat * 10 ^ min x.exponent 0 = 2 ^ min x.exponent 0 := by
    have negative : min x.exponent 0 = -((-x.exponent).toNat : Int) := by omega
    rw [negative, zpow_neg, zpow_neg, zpow_natCast, zpow_natCast, show (10 : ℚ) = 5 * 2 by norm_num, mul_pow]
    field_simp
  have two : (2 : ℚ) ^ x.exponent.toNat * 2 ^ min x.exponent 0 = 2 ^ x.exponent := by
    rw [← zpow_natCast, ← zpow_add₀ (by norm_num)]
    congr 1
    omega
  unfold Decimal.value magnitude num
  rw [Nat.shiftLeft_eq, Nat.pow_eq]
  push_cast
  rw [mul_assoc _ ((5 : ℚ) ^ _), five, mul_assoc, two]

theorem rounds_searchGrids (filled : 0 < x.mantissa) (scale : Int) (grids : List Nat) :
    x.Rounds (x.searchGrids scale grids).value := by
  induction grids with
  | nil =>
    rw [searchGrids, value_exact]
    exact rounds_magnitude filled
  | cons digits more ih =>
    rw [searchGrids]
    cases found : x.onGrid? (scale - digits) with
    | none => exact ih
    | some d => exact rounds_of_readsBack (readsBack_of_onGrid? found)

/-- The shortest decimal of a double that is not zero rounds to it. -/
theorem rounds_shortest (filled : 0 < x.mantissa) : x.Rounds x.shortest.value :=
  rounds_searchGrids filled _ _

end Binary64

end TableQuery

import Mathlib.Algebra.Order.Group.Abs
import TableQuery.Proofs.Number.Range
import TableQuery.Proofs.Number.Word
import TableQuery.Request.Value

/-!
# Numbers in text

The value of a filter on a number column may be a text. One of an optional sign and decimal digits denotes an integer.
It is refused if the integer is beyond all doubles, and else becomes the integer that is nearest in 64 bits; so it keeps
its value where that fits, and no integer between 64 bits and the end of the doubles does.

## What is proved

`Limits.keeps_integer_iff`: what becomes of the text, and which texts keep their value.
-/

namespace TableQuery

/-- The exact value. -/
def Binary64.value (x : Binary64) : ℚ := if x.negative then -x.magnitude else x.magnitude

/-- An integer is a number of JSON: a signed or an unsigned word. -/
def FitsJson (n : Int) : Prop := -9223372036854775808 ≤ n ∧ n ≤ 18446744073709551615

namespace Limits

/-- An answer to a text keeps the integer that the text denotes: it is a refusal, the same number, or the nearest double
to a number that is too large for an integer of JSON. -/
def Keeps (n : Int) : Except Bytes Json → Prop
  | .error _ => True
  | .ok (.int m) => m = n
  | .ok (.float x) => x.value = n ∨ ¬FitsJson n ∧ ∀ y : Binary64, |x.value - n| ≤ |y.value - n|
  | .ok _ => False

/-- What an integer in decimal digits becomes: the nearest of 64 bits, unless it is beyond all doubles. -/
def answerTo (n : Int) : Except Bytes Json :=
  if Binary64.leastBeyond ≤ n.natAbs then .error "number"
  else .ok (.int (max (-9223372036854775808) (min n 9223372036854775807)))

variable {s : Bytes} {n : Int}

theorem numberOfText?_of_denotes (denotes : Numeral.Denotes s n) :
    numberOfText? s = (Numeral.double? s).map fun _ => .int (Int64.ofIntClamp n).toInt := by
  have visible : (s.head?.map Ascii.isSpace).getD true = false := by
    obtain ⟨b, rest, rfl⟩ := List.exists_cons_of_ne_nil denotes.ne_nil
    exact denotes.forall_mem (p := fun b => Ascii.isSpace b = false) (by decide) rfl rfl b List.mem_cons_self
  have pointless : (s.any fun b => b == Ascii.dot || b == 0x65 || b == 0x45) = false :=
    List.any_eq_false.mpr (denotes.forall_mem (by decide) (by decide) (by decide))
  unfold numberOfText?
  rw [visible, pointless, if_neg Bool.false_ne_true]
  dsimp only
  rw [if_neg Bool.false_ne_true, denotes.integer?]
  cases Numeral.double? s <;> rfl

theorem checkScalar_of_denotes (limits : Limits) (denotes : Numeral.Denotes s n) :
    limits.checkScalar .number (.str s) = answerTo n := by
  have range := denotes.double?_eq_none_iff
  unfold checkScalar checkPlain answerTo
  dsimp only
  rw [numberOfText?_of_denotes denotes, ← toInt_ofIntClamp_eq]
  cases read : Numeral.double? s with
  | none =>
    rw [if_pos (range.mp read)]
    rfl
  | some x =>
    have within : ¬Binary64.leastBeyond ≤ n.natAbs := fun beyond => by simp [range.mpr beyond] at read
    rw [if_neg within]
    rfl

/-- An integer in decimal digits keeps its value just if it fits 64 bits or is beyond all doubles; between them it
becomes the least or the greatest integer of 64 bits. -/
theorem keeps_integer_iff (limits : Limits) (denotes : Numeral.Denotes s n) :
    limits.checkScalar .number (.str s) = answerTo n
      ∧ (Keeps n (limits.checkScalar .number (.str s)) ↔ FitsWord n ∨ Binary64.leastBeyond ≤ n.natAbs) := by
  have answer := limits.checkScalar_of_denotes denotes
  refine ⟨answer, ?_⟩
  rw [answer]
  unfold answerTo
  split_ifs with beyond
  · exact iff_of_true trivial (.inr beyond)
  · rw [or_iff_left beyond]
    show max (-9223372036854775808) (min n 9223372036854775807) = n ↔ FitsWord n
    unfold FitsWord
    omega

theorem denotes_nextWord : Numeral.Denotes "9223372036854775808" 9223372036854775808 := by
  have plain : Bytes.IsDigits "9223372036854775808" := List.all_eq_true.mp (by decide +kernel)
  have value : Bytes.digitsValue "9223372036854775808" = 9223372036854775808 := by decide +kernel
  have denotes := Numeral.Denotes.unsigned plain (by decide +kernel)
  rwa [value] at denotes

/-- The integer after the greatest of 64 bits becomes that one. -/
theorem keeps_integer_iff_nextWord :
    Numeral.Denotes "9223372036854775808" 9223372036854775808
      ∧ Limits.checkScalar {} .number (.str "9223372036854775808") = .ok (.int 9223372036854775807)
      ∧ ¬Keeps 9223372036854775808 (Limits.checkScalar {} .number (.str "9223372036854775808")) := by
  obtain ⟨answer, keeps⟩ := keeps_integer_iff {} denotes_nextWord
  have within : ¬Binary64.leastBeyond ≤ (9223372036854775808 : Int).natAbs := by decide +kernel
  refine ⟨denotes_nextWord, ?_, ?_⟩
  · rw [answer, answerTo, if_neg within]
    rfl
  · rw [keeps]
    exact not_or.mpr ⟨by decide, within⟩

end Limits

end TableQuery

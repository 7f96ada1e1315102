import TableQuery.Text.Bytes

/-!
# Finite binary64 numbers

A finite double is kept exactly, as sign, mantissa and exponent: the value is `mantissa * 2 ^ exponent`.
`Canonical` makes the pair unique, so equal numbers of one sign are equal values, and all arithmetic on
doubles in this library is arithmetic on natural numbers and integers.

`roundDiv` is the only rounding rule: to the nearest, a tie to the even neighbour. `ofRatio?` rounds an
exact fraction by it; the decimal, hexadecimal and integer readers all go through `ofRatio?`, and each
returns `none` exactly when the rounded magnitude is beyond the largest finite double.
-/

namespace TableQuery

/-- The nearest integer to `num / den`; of two equally near, the even one. -/
def roundDiv (num den : Nat) : Nat :=
  let below := num / den
  let rest := 2 * (num % den)
  if den < rest ∨ (rest = den ∧ below % 2 = 1) then below + 1 else below

namespace Binary64

/-- The least mantissa that uses all 53 bits. -/
abbrev leastFull : Nat := 0x10000000000000

/-- The one pair that stands for a magnitude: 53 bits, all of them used unless the exponent is the least. -/
def Canonical (mantissa : Nat) (exponent : Int) : Prop :=
  mantissa < 2 * leastFull ∧ -1074 ≤ exponent ∧ exponent ≤ 971 ∧
    (exponent = -1074 ∨ leastFull ≤ mantissa)

instance (mantissa : Nat) (exponent : Int) : Decidable (Canonical mantissa exponent) :=
  inferInstanceAs (Decidable (_ ∧ _ ∧ _ ∧ _))

end Binary64

/-- A finite double. -/
structure Binary64 where
  negative : Bool
  mantissa : Nat
  exponent : Int
  canonical : Binary64.Canonical mantissa exponent
deriving DecidableEq, Repr

namespace Binary64

/-- Zero, with its sign. -/
def zero (negative : Bool) : Binary64 := ⟨negative, 0, -1074, by decide⟩

/-- The double with the given parts, if they are canonical. -/
def ofParts? (negative : Bool) (mantissa : Nat) (exponent : Int) : Option Binary64 :=
  if h : Canonical mantissa exponent then some ⟨negative, mantissa, exponent, h⟩ else none

/-! ## Rounding -/

/-- The exponent at which the integer part of `num / den` has the given number of bits. -/
def exponentFor (bits num den : Nat) : Int :=
  let guess : Int := (num.log2 : Int) - den.log2 - bits + 1
  let scaled := (num <<< (-guess).toNat) / (den <<< guess.toNat)
  if scaled.log2 + 1 < bits then guess - 1 else guess

/-- The exponent at which the integer part of `num / den` has 53 bits, or the least exponent. -/
def roundingExponent (num den : Nat) : Int := max (-1074) (exponentFor 53 num den)

/-- The double nearest to `num / den`; none if that is out of range. -/
def ofRatio? (negative : Bool) (num den : Nat) : Option Binary64 :=
  if num = 0 then some (zero negative)
  else
    let e := roundingExponent num den
    let m := roundDiv (num <<< (-e).toNat) (den <<< e.toNat)
    if m = 2 * leastFull then ofParts? negative leastFull (e + 1) else ofParts? negative m e

/-- The double nearest to an integer. -/
def ofInt? (n : Int) : Option Binary64 := ofRatio? (n < 0) n.natAbs 1

/-- The double nearest to `digits * 10 ^ exponent`. Magnitudes far outside the range are settled by
their number of digits. -/
def ofDecimal? (negative : Bool) (digits : Bytes) (exponent : Int) : Option Binary64 :=
  let significant := digits.dropWhile (· == Ascii.zero)
  let magnitude : Int := significant.length + exponent
  if significant.isEmpty then some (zero negative)
  else if 310 < magnitude then none
  else if magnitude < -330 then some (zero negative)
  else
    ofRatio? negative (Bytes.digitsValue significant * Nat.pow 10 exponent.toNat)
      (Nat.pow 10 (-exponent).toNat)

/-- The double nearest to `n * 2 ^ exponent`. -/
def ofBinary? (negative : Bool) (n : Nat) (exponent : Int) : Option Binary64 :=
  let magnitude : Int := n.log2 + exponent
  if n = 0 then some (zero negative)
  else if 1100 < magnitude then none
  else if magnitude < -1200 then some (zero negative)
  else ofRatio? negative (n <<< exponent.toNat) (1 <<< (-exponent).toNat)

/-! ## Reading the value -/

/-- Whether the number is a zero of either sign. -/
def isZero (x : Binary64) : Bool := x.mantissa == 0

/-- Whether the number is below zero. -/
def isBelowZero (x : Binary64) : Bool := x.negative && !x.isZero

/-- Equality of numbers: the two zeros are one number. -/
def same (x y : Binary64) : Bool := (x.isZero && y.isZero) || x == y

/-- The numerator of the exact magnitude. -/
def num (x : Binary64) : Nat := x.mantissa <<< x.exponent.toNat

/-- The denominator of the exact magnitude, a power of two. -/
def den (x : Binary64) : Nat := 1 <<< (-x.exponent).toNat

/-- Whether the number is an integer. -/
def isIntegral (x : Binary64) : Bool := x.num % x.den == 0

/-- The integer part, toward zero. -/
def trunc (x : Binary64) : Int :=
  let magnitude : Int := (x.num / x.den : Nat)
  if x.negative then -magnitude else magnitude

/-- The exact magnitude in hundredths, rounded, as whole part and two digits. -/
def magnitudeInCents (x : Binary64) : Bytes × Bytes :=
  let cents := roundDiv (100 * x.num) x.den
  (Bytes.ofNat (cents / 100), Bytes.ofNatPadded 2 (cents % 100))

end Binary64

end TableQuery

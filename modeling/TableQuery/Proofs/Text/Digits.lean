import Mathlib.Data.Nat.Digits.Defs
import Mathlib.Tactic.Ring
import TableQuery.Number.Numeral

/-!
# Digits and the numbers they denote

## What is proved

`Bytes.digitsValue_ofNat`: the digits of a natural number denote it.
`Bytes.ofNatPadded_lt_iff`: numbers padded to the same number of places are in the order of the numbers.
`Numeral.integer?_ofInt`: the text of an integer reads back as it. So different numbers have different texts.
`Numeral.integer?_eq_some_iff`: a text reads as an integer just if it is an optional sign and digits that denote it.
-/

namespace TableQuery

namespace Ascii

theorem isDigit_iff {b : UInt8} : isDigit b = true ↔ 48 ≤ b.toNat ∧ b.toNat ≤ 57 := by
  unfold isDigit
  simp only [Bool.and_eq_true, decide_eq_true_eq, UInt8.le_iff_toNat_le]
  rfl

/-- What is true of the ten digits is true of every byte that is one. -/
theorem forall_isDigit {p : UInt8 → Prop} (digits : ∀ d < 10, p (UInt8.ofNat (48 + d))) {b : UInt8}
    (digit : isDigit b = true) : p b := by
  obtain ⟨low, high⟩ := isDigit_iff.mp digit
  have place : UInt8.ofNat (48 + (b.toNat - 48)) = b := by
    rw [Nat.add_sub_of_le low, UInt8.ofNat_toNat]
  exact place ▸ digits (b.toNat - 48) (by omega)

end Ascii

namespace Bytes

/-- A text of decimal digits. -/
def IsDigits (s : Bytes) : Prop := ∀ b ∈ s, Ascii.isDigit b = true

theorem IsDigits.append {s t : Bytes} (hs : IsDigits s) (ht : IsDigits t) : IsDigits (s ++ t) :=
  List.forall_mem_append.mpr ⟨hs, ht⟩

theorem isDigits_zeros (n : Nat) : IsDigits (List.replicate n Ascii.zero) := by
  intro b mem
  rw [List.eq_of_mem_replicate mem]
  rfl

/-! ## The text of a number -/

theorem toNat_of_isDigit {c : Char} (digit : c.isDigit = true) :
    48 ≤ c.toNat ∧ c.toNat ≤ 57 ∧ c.val.toUInt8.toNat = c.toNat := by
  simp only [Char.isDigit, Bool.and_eq_true, decide_eq_true_eq, UInt32.le_iff_toNat_le, ge_iff_le] at digit
  change 48 ≤ c.toNat ∧ c.toNat ≤ 57 at digit
  have small : c.val.toUInt8.toNat = c.toNat % 256 := rfl
  omega

theorem isDigits_ofNat (n : Nat) : IsDigits (ofNat n) := by
  intro b mem
  obtain ⟨c, hc, rfl⟩ := List.mem_map.mp mem
  obtain ⟨low, high, byte⟩ := toNat_of_isDigit (Nat.isDigit_of_mem_toDigits (by decide) (Nat.le_refl 10) hc)
  simp only [Ascii.isDigit, Bool.and_eq_true, decide_eq_true_eq, UInt8.le_iff_toNat_le, byte]
  exact ⟨low, high⟩

theorem ofNat_ne_nil (n : Nat) : ofNat n ≠ [] := by
  have filled : 0 < (ofNat n).length := by
    unfold ofNat
    rw [List.length_map]
    exact Nat.length_toDigits_pos
  exact List.ne_nil_of_length_pos filled

/-! ## The number of a text -/

theorem digitsValue_append (s t : Bytes) : digitsValue (s ++ t) = digitsValue s * 10 ^ t.length + digitsValue t := by
  have general (n : Nat) : t.foldl (fun acc b => acc * 10 + Ascii.digitValue b) n
      = n * 10 ^ t.length + t.foldl (fun acc b => acc * 10 + Ascii.digitValue b) 0 := by
    induction t generalizing n with
    | nil => simp
    | cons b t ih =>
      rw [List.foldl_cons, List.foldl_cons, ih, ih (0 * 10 + _), List.length_cons, Nat.pow_succ]
      ring
  unfold digitsValue
  rw [List.foldl_append, general]

theorem digitsValue_zeros (n : Nat) : digitsValue (List.replicate n Ascii.zero) = 0 := by
  induction n with
  | zero => rfl
  | succ n ih =>
    rw [List.replicate_succ', digitsValue_append, ih]
    rfl

theorem digitsValue_zeros_append (n : Nat) (s : Bytes) :
    digitsValue (List.replicate n Ascii.zero ++ s) = digitsValue s := by
  rw [digitsValue_append, digitsValue_zeros, Nat.zero_mul, Nat.zero_add]

theorem digitsValue_append_zeros (s : Bytes) (n : Nat) :
    digitsValue (s ++ List.replicate n Ascii.zero) = digitsValue s * 10 ^ n := by
  rw [digitsValue_append, digitsValue_zeros, List.length_replicate, Nat.add_zero]

theorem digitsValue_dropWhile_zero (s : Bytes) : digitsValue (s.dropWhile (· == Ascii.zero)) = digitsValue s := by
  induction s with
  | nil => rfl
  | cons b s ih =>
    by_cases zero : b = Ascii.zero
    · subst zero
      exact ih.trans (digitsValue_zeros_append 1 s).symm
    · rw [List.dropWhile_cons_of_neg (by simpa using zero)]

/-- A digit other than zero has at least the weight of its place. -/
theorem pow_le_digitsValue {b : UInt8} {s : Bytes} (digit : Ascii.isDigit b = true) (nonzero : b ≠ Ascii.zero) :
    10 ^ s.length ≤ digitsValue (b :: s) := by
  have positive : 1 ≤ Ascii.digitValue b := by
    obtain ⟨low, -⟩ := Ascii.isDigit_iff.mp digit
    have other : b.toNat ≠ 48 := fun same => nonzero (UInt8.toNat_inj.mp same)
    unfold Ascii.digitValue
    exact Nat.sub_pos_of_lt (by omega)
  calc 10 ^ s.length ≤ Ascii.digitValue b * 10 ^ s.length := Nat.le_mul_of_pos_left _ positive
    _ ≤ digitsValue [b] * 10 ^ s.length + digitsValue s := by
      rw [show digitsValue [b] = Ascii.digitValue b from Nat.zero_add _]
      exact Nat.le_add_right _ _
    _ = digitsValue (b :: s) := (digitsValue_append [b] s).symm

theorem digitsValue_ofNat (n : Nat) : digitsValue (ofNat n) = n := by
  have general (chars : List Char) (digits : ∀ c ∈ chars, c.isDigit = true) (acc : Nat) :
      (chars.map fun c => c.val.toUInt8).foldl (fun acc b => acc * 10 + Ascii.digitValue b) acc
        = Nat.ofDigitChars 10 chars acc := by
    induction chars generalizing acc with
    | nil => rfl
    | cons c chars ih =>
      rw [List.forall_mem_cons] at digits
      obtain ⟨low, high, byte⟩ := toNat_of_isDigit digits.1
      have value : Ascii.digitValue c.val.toUInt8 = c.toNat - 48 := congrArg (· - 48) byte
      rw [List.map_cons, List.foldl_cons, ih digits.2, value, Nat.ofDigitChars_cons, Nat.mul_comm 10 acc]
      rfl
  unfold digitsValue ofNat
  rw [general _ (fun c mem => Nat.isDigit_of_mem_toDigits (by decide) (Nat.le_refl 10) mem)]
  exact Nat.ofDigitChars_toDigits (by decide) (Nat.le_refl 10)

theorem ofNat_injective : Function.Injective ofNat := Function.LeftInverse.injective digitsValue_ofNat

/-! ## Padding -/

theorem isDigits_ofNatPadded (width n : Nat) : IsDigits (ofNatPadded width n) :=
  (isDigits_zeros _).append (isDigits_ofNat n)

theorem ofNatPadded_ne_nil (width n : Nat) : ofNatPadded width n ≠ [] :=
  List.append_ne_nil_of_right_ne_nil _ (ofNat_ne_nil n)

theorem digitsValue_ofNatPadded (width n : Nat) : digitsValue (ofNatPadded width n) = n :=
  (digitsValue_zeros_append _ _).trans (digitsValue_ofNat n)

/-! ## The order of numbers and of their texts -/

theorem digitsValue_cons (b : UInt8) (s : Bytes) :
    digitsValue (b :: s) = Ascii.digitValue b * 10 ^ s.length + digitsValue s := by
  rw [← List.singleton_append, digitsValue_append]
  exact congrArg (· * 10 ^ s.length + digitsValue s) (Nat.zero_add _)

theorem digitsValue_lt {s : Bytes} (digits : s.IsDigits) : digitsValue s < 10 ^ s.length := by
  induction s with
  | nil => decide
  | cons b s ih =>
    obtain ⟨digit, digits⟩ := List.forall_mem_cons.mp digits
    have nine : Ascii.digitValue b ≤ 9 := by
      obtain ⟨-, high⟩ := Ascii.isDigit_iff.mp digit
      exact Nat.sub_le_of_le_add high
    calc digitsValue (b :: s) = Ascii.digitValue b * 10 ^ s.length + digitsValue s := digitsValue_cons b s
      _ < 9 * 10 ^ s.length + 10 ^ s.length := Nat.add_lt_add_of_le_of_lt (Nat.mul_le_mul_right _ nine) (ih digits)
      _ = 10 ^ (b :: s).length := by rw [List.length_cons]; ring

/-- Numbers are compared by the part above a place, and then by the part below it. -/
theorem mul_add_lt_iff {place high low high' low' : Nat} (small : low < place) (small' : low' < place) :
    high * place + low < high' * place + low' ↔ high < high' ∨ high = high' ∧ low < low' := by
  rcases Nat.lt_trichotomy high high' with less | rfl | more
  · have next : (high + 1) * place ≤ high' * place := Nat.mul_le_mul_right _ less
    rw [Nat.succ_mul] at next
    exact iff_of_true (by omega) (.inl less)
  · omega
  · have next : (high' + 1) * place ≤ high * place := Nat.mul_le_mul_right _ more
    rw [Nat.succ_mul] at next
    exact iff_of_false (by omega) (by omega)

/-- Digits of one length are in the order of their numbers. -/
theorem lt_iff_digitsValue_lt {s t : Bytes} (hs : s.IsDigits) (ht : t.IsDigits) (length : s.length = t.length) :
    s < t ↔ digitsValue s < digitsValue t := by
  induction s generalizing t with
  | nil =>
    obtain rfl := List.length_eq_zero_iff.mp length.symm
    exact iff_of_false (List.not_lt_nil []) (Nat.lt_irrefl _)
  | cons b s ih =>
    cases t with
    | nil => cases length
    | cons c t =>
      obtain ⟨hb, hs⟩ := List.forall_mem_cons.mp hs
      obtain ⟨hc, ht⟩ := List.forall_mem_cons.mp ht
      have length : s.length = t.length := Nat.succ.inj length
      obtain ⟨low, -⟩ := Ascii.isDigit_iff.mp hb
      obtain ⟨low', -⟩ := Ascii.isDigit_iff.mp hc
      have first : b < c ↔ Ascii.digitValue b < Ascii.digitValue c := by
        rw [UInt8.lt_iff_toNat_lt, Ascii.digitValue, Ascii.digitValue]
        omega
      have same : b = c ↔ Ascii.digitValue b = Ascii.digitValue c := by
        rw [← UInt8.toNat_inj, Ascii.digitValue, Ascii.digitValue]
        omega
      rw [List.cons_lt_cons_iff, ih hs ht length, digitsValue_cons, digitsValue_cons, length,
        mul_add_lt_iff (length ▸ digitsValue_lt hs) (digitsValue_lt ht), first, same]

theorem length_ofNatPadded {width n : Nat} (some : 0 < width) (fits : n < 10 ^ width) :
    (ofNatPadded width n).length = width := by
  have short : (ofNat n).length ≤ width := by
    unfold ofNat
    rw [List.length_map]
    exact (Nat.length_toDigits_le_iff (by decide) some).mpr fits
  unfold ofNatPadded
  rw [List.length_append, List.length_replicate]
  exact Nat.sub_add_cancel short

theorem ofNatPadded_injective (width : Nat) : Function.Injective (ofNatPadded width) :=
  Function.LeftInverse.injective (digitsValue_ofNatPadded width)

/-- Numbers padded to the same number of places are in the order of the numbers. -/
theorem ofNatPadded_lt_iff {width m n : Nat} (some : 0 < width) (hm : m < 10 ^ width) (hn : n < 10 ^ width) :
    ofNatPadded width m < ofNatPadded width n ↔ m < n := by
  have length : (ofNatPadded width m).length = (ofNatPadded width n).length :=
    (length_ofNatPadded some hm).trans (length_ofNatPadded some hn).symm
  rw [lt_iff_digitsValue_lt (isDigits_ofNatPadded width m) (isDigits_ofNatPadded width n) length,
    digitsValue_ofNatPadded, digitsValue_ofNatPadded]

/-- Texts with beginnings of one length are compared by the beginnings, and then by the rest. -/
theorem append_lt_append_iff {s t : Bytes} (length : s.length = t.length) (s' t' : Bytes) :
    s ++ s' < t ++ t' ↔ s < t ∨ s = t ∧ s' < t' := by
  induction s generalizing t with
  | nil =>
    obtain rfl := List.length_eq_zero_iff.mp length.symm
    simp
  | cons b s ih =>
    cases t with
    | nil => cases length
    | cons c t =>
      rw [List.cons_append, List.cons_append, List.cons_lt_cons_iff, List.cons_lt_cons_iff, ih (Nat.succ.inj length),
        List.cons.injEq]
      tauto


/-- A number in a fixed number of places in front of a text is compared first. -/
theorem ofNatPadded_append_lt_iff {width m n : Nat} (some : 0 < width) (hm : m < 10 ^ width) (hn : n < 10 ^ width)
    (s t : Bytes) : ofNatPadded width m ++ s < ofNatPadded width n ++ t ↔ m < n ∨ m = n ∧ s < t := by
  have length : (ofNatPadded width m).length = (ofNatPadded width n).length :=
    (length_ofNatPadded some hm).trans (length_ofNatPadded some hn).symm
  rw [append_lt_append_iff length, ofNatPadded_lt_iff some hm hn, (ofNatPadded_injective width).eq_iff]

end Bytes

/-! ## Reading integers -/

namespace Numeral

theorem sign_of_isDigits {s : Bytes} (digits : s.IsDigits) : sign s = (false, s) := by
  unfold sign
  split
  · exact absurd (digits _ List.mem_cons_self) Bool.false_ne_true
  · exact absurd (digits _ List.mem_cons_self) Bool.false_ne_true
  · rfl

/-- A sign and digits, of which there is one at least. -/
theorem integer?_of_sign {s digits : Bytes} {negative : Bool} (signed : sign s = (negative, digits))
    (plain : digits.IsDigits) (filled : digits ≠ []) :
    integer? s = some (if negative then -(Bytes.digitsValue digits : Int) else Bytes.digitsValue digits) := by
  have all : digits.all Ascii.isDigit = true := List.all_eq_true.mpr plain
  have nonempty : digits.isEmpty = false := List.isEmpty_eq_false_iff.mpr filled
  unfold integer?
  rw [signed]
  dsimp only
  rw [nonempty, all, Bool.not_true, Bool.false_or, if_neg Bool.false_ne_true]

theorem integer?_ofInt (n : Int) : integer? (Bytes.ofInt n) = some n := by
  have plain := Bytes.isDigits_ofNat n.natAbs
  have filled := Bytes.ofNat_ne_nil n.natAbs
  unfold Bytes.ofInt
  split_ifs with negative
  · have signed : sign (Ascii.minus :: Bytes.ofNat n.natAbs) = (true, Bytes.ofNat n.natAbs) := rfl
    rw [integer?_of_sign signed plain filled, Bytes.digitsValue_ofNat, if_pos rfl]
    congr
    omega
  · rw [integer?_of_sign (sign_of_isDigits plain) plain filled, Bytes.digitsValue_ofNat, if_neg Bool.false_ne_true]
    congr
    omega

/-! ## Integers with an optional sign -/

/-- A text is an optional sign and decimal digits, and denotes an integer. -/
inductive Denotes : Bytes → Int → Prop
  | unsigned {digits : Bytes} (plain : digits.IsDigits) (filled : digits ≠ []) :
      Denotes digits (Bytes.digitsValue digits)
  | plus {digits : Bytes} (plain : digits.IsDigits) (filled : digits ≠ []) :
      Denotes (Ascii.plus :: digits) (Bytes.digitsValue digits)
  | minus {digits : Bytes} (plain : digits.IsDigits) (filled : digits ≠ []) :
      Denotes (Ascii.minus :: digits) (-(Bytes.digitsValue digits : Int))

variable {s : Bytes} {n : Int}

/-- What is true of the digits and of the signs is true of the bytes of such a text. -/
theorem Denotes.forall_mem {p : UInt8 → Prop} (denotes : Denotes s n) (digits : ∀ d < 10, p (UInt8.ofNat (48 + d)))
    (plus : p Ascii.plus) (minus : p Ascii.minus) : ∀ b ∈ s, p b := by
  have all {t : Bytes} (plain : t.IsDigits) : ∀ b ∈ t, p b := fun b mem => Ascii.forall_isDigit digits (plain b mem)
  cases denotes with
  | unsigned plain _ => exact all plain
  | plus plain _ => exact List.forall_mem_cons.mpr ⟨plus, all plain⟩
  | minus plain _ => exact List.forall_mem_cons.mpr ⟨minus, all plain⟩

theorem Denotes.ne_nil (denotes : Denotes s n) : s ≠ [] := by
  cases denotes with
  | unsigned _ filled => exact filled
  | plus _ _ => exact List.cons_ne_nil _ _
  | minus _ _ => exact List.cons_ne_nil _ _

/-- The sign and the digits of such a text. -/
theorem Denotes.sign (denotes : Denotes s n) :
    ∃ negative digits, sign s = (negative, digits) ∧ digits.IsDigits ∧ digits ≠ []
      ∧ n = if negative then -(Bytes.digitsValue digits : Int) else Bytes.digitsValue digits := by
  cases denotes with
  | unsigned plain filled => exact ⟨false, _, sign_of_isDigits plain, plain, filled, rfl⟩
  | plus plain filled => exact ⟨false, _, rfl, plain, filled, rfl⟩
  | minus plain filled => exact ⟨true, _, rfl, plain, filled, rfl⟩

theorem Denotes.integer? (denotes : Denotes s n) : integer? s = some n := by
  obtain ⟨negative, digits, signed, plain, filled, rfl⟩ := denotes.sign
  exact integer?_of_sign signed plain filled

theorem denotes_of_integer? (read : integer? s = some n) : Denotes s n := by
  have digitsOf {digits : Bytes} {negative : Bool} (signed : sign s = (negative, digits)) :
      digits.IsDigits ∧ digits ≠ []
        ∧ n = if negative then -(Bytes.digitsValue digits : Int) else Bytes.digitsValue digits := by
    unfold integer? at read
    rw [signed] at read
    dsimp only at read
    by_cases refused : (digits.isEmpty || !digits.all Ascii.isDigit) = true
    · rw [if_pos refused] at read
      cases read
    · rw [if_neg refused] at read
      simp only [Bool.or_eq_true, Bool.not_eq_true', not_or, Bool.not_eq_true, Bool.not_eq_false] at refused
      exact ⟨List.all_eq_true.mp refused.2, List.isEmpty_eq_false_iff.mp refused.1, (Option.some.inj read).symm⟩
  cases s with
  | nil => cases read
  | cons b rest =>
    by_cases minus : b = Ascii.minus
    · subst minus
      obtain ⟨plain, filled, rfl⟩ := digitsOf rfl
      exact .minus plain filled
    · by_cases plus : b = Ascii.plus
      · subst plus
        obtain ⟨plain, filled, rfl⟩ := digitsOf rfl
        exact .plus plain filled
      · have unsigned : sign (b :: rest) = (false, b :: rest) := by
          unfold sign
          split
          · exact absurd (List.cons.inj ‹_›).1 minus
          · exact absurd (List.cons.inj ‹_›).1 plus
          · rfl
        obtain ⟨plain, filled, rfl⟩ := digitsOf unsigned
        exact .unsigned plain filled

/-- A text reads as an integer just if it denotes it. -/
theorem integer?_eq_some_iff : integer? s = some n ↔ Denotes s n := ⟨denotes_of_integer?, Denotes.integer?⟩

theorem Denotes.unique {m : Int} (denotes : Denotes s m) (other : Denotes s n) : m = n :=
  Option.some.inj (denotes.integer?.symm.trans other.integer?)

end Numeral

namespace Bytes

theorem ofInt_injective : Function.Injective ofInt := by
  intro m n same
  have read := Numeral.integer?_ofInt m
  rw [same, Numeral.integer?_ofInt] at read
  exact (Option.some.inj read).symm

end Bytes

end TableQuery

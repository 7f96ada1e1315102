import Mathlib.Data.List.TakeWhile
import TableQuery.Proofs.Number.Rounding
import TableQuery.Proofs.Text.Cut
import TableQuery.Proofs.Text.Digits

/-!
# The text of a double

The text of a double is a sign and a decimal numeral, laid out with a point or with an exponent. However it is laid
out, it denotes the shortest decimal, which rounds to the double; so the text tells the double.

## What is proved

`Numeral.decimal?_layout`: a numeral denotes the same number with its point anywhere.
`Binary64.toBytes_injective`: different doubles have different texts.
-/

namespace TableQuery

/-! ## Reading decimal numerals -/

namespace Numeral

/-- The number that a decimal numeral without a sign denotes, before any rounding. -/
def decimal? (s : Bytes) : Option ℚ := do
  let (whole, fraction, rest) ← mantissa? Ascii.isDigit s
  let e ← exponent? (fun b => Ascii.toLower b == 0x65) rest
  return Bytes.digitsValue (whole ++ fraction) * 10 ^ (e - fraction.length)

/-- A text that goes on without a digit. -/
def Stops (s : Bytes) : Prop := ∀ b ∈ s.head?, Ascii.isDigit b = false

variable {whole fraction rest : Bytes}

theorem span_of_isDigits (plain : whole.IsDigits) (stops : Stops rest) :
    span Ascii.isDigit (whole ++ rest) = (whole, rest) := by
  unfold span
  rw [List.takeWhile_append_of_pos plain, List.dropWhile_append_of_pos plain]
  cases rest with
  | nil => simp
  | cons b rest =>
    have other : Ascii.isDigit b = false := stops b rfl
    simp [other]

/-- Digits without a point. -/
theorem mantissa?_whole (plain : whole.IsDigits) (filled : whole ≠ []) (stops : Stops rest)
    (pointless : ∀ after, rest ≠ Ascii.dot :: after) :
    mantissa? Ascii.isDigit (whole ++ rest) = some (whole, [], rest) := by
  have nonempty : whole.isEmpty = false := List.isEmpty_eq_false_iff.mpr filled
  unfold mantissa?
  rw [span_of_isDigits plain stops]
  dsimp only
  split
  · next after => exact absurd rfl (pointless after)
  · dsimp only
    rw [nonempty, Bool.false_and, if_neg Bool.false_ne_true]

/-- Digits on both sides of a point. -/
theorem mantissa?_point (plain : whole.IsDigits) (filled : whole ≠ []) (plain' : fraction.IsDigits)
    (stops : Stops rest) :
    mantissa? Ascii.isDigit (whole ++ Ascii.dot :: (fraction ++ rest)) = some (whole, fraction, rest) := by
  have nonempty : whole.isEmpty = false := List.isEmpty_eq_false_iff.mpr filled
  have point : Stops (Ascii.dot :: (fraction ++ rest)) := by
    rintro b ⟨⟩
    rfl
  unfold mantissa?
  rw [span_of_isDigits plain point]
  change (if whole.isEmpty && (span Ascii.isDigit (fraction ++ rest)).1.isEmpty then none
    else some (whole, span Ascii.isDigit (fraction ++ rest))) = _
  rw [span_of_isDigits plain' stops]
  rw [nonempty, Bool.false_and, if_neg Bool.false_ne_true]

/-- An exponent as it is written: a sign always, and two digits at least. -/
theorem exponent?_signed (e : Int) :
    exponent? (fun b => Ascii.toLower b == 0x65)
        (0x65 :: (if e < 0 then Ascii.minus else Ascii.plus) :: Bytes.ofNatPadded 2 e.natAbs) = some e := by
  change integer? _ = some e
  have plain := Bytes.isDigits_ofNatPadded 2 e.natAbs
  have filled := Bytes.ofNatPadded_ne_nil 2 e.natAbs
  split_ifs with negative
  · have signed : sign (Ascii.minus :: Bytes.ofNatPadded 2 e.natAbs) = (true, Bytes.ofNatPadded 2 e.natAbs) := rfl
    rw [integer?_of_sign signed plain filled, Bytes.digitsValue_ofNatPadded, if_pos rfl]
    congr
    omega
  · have signed : sign (Ascii.plus :: Bytes.ofNatPadded 2 e.natAbs) = (false, Bytes.ofNatPadded 2 e.natAbs) := rfl
    rw [integer?_of_sign signed plain filled, Bytes.digitsValue_ofNatPadded, if_neg Bool.false_ne_true]
    congr
    omega

/-- A numeral with a point and no exponent. -/
theorem decimal?_point (plain : whole.IsDigits) (filled : whole ≠ []) (plain' : fraction.IsDigits) :
    decimal? (whole ++ Ascii.dot :: fraction)
      = some ((Bytes.digitsValue (whole ++ fraction) : ℚ) * 10 ^ (-(fraction.length : Int))) := by
  have stops : Stops [] := by rintro b ⟨⟩
  have parts := mantissa?_point plain filled plain' stops
  rw [List.append_nil] at parts
  unfold decimal?
  rw [parts]
  simp [exponent?]

/-- Digits, the point behind the first of them if there are more, and an exponent. -/
theorem decimal?_scientific {digits : Bytes} (plain : digits.IsDigits) (filled : digits ≠ []) (e : Int) :
    decimal? (digits.take 1 ++ (if digits.length ≤ 1 then [] else Ascii.dot :: digits.drop 1)
        ++ Bytes.ofString "e" ++ (if e < 0 then Ascii.minus else Ascii.plus) :: Bytes.ofNatPadded 2 e.natAbs)
      = some ((Bytes.digitsValue digits : ℚ) * 10 ^ (e + 1 - digits.length)) := by
  obtain ⟨d, more, rfl⟩ := List.exists_cons_of_ne_nil filled
  have stops (s : Bytes) : Stops (0x65 :: s) := by
    rintro b ⟨⟩
    rfl
  have first : Bytes.IsDigits [d] := List.forall_mem_singleton.mpr (plain d List.mem_cons_self)
  have others : Bytes.IsDigits more := fun b mem => plain b (List.mem_cons_of_mem d mem)
  have written (s : Bytes) : List.take 1 (d :: more)
        ++ (if (d :: more).length ≤ 1 then [] else Ascii.dot :: List.drop 1 (d :: more)) ++ Bytes.ofString "e" ++ s
      = [d] ++ if more = [] then 0x65 :: s else Ascii.dot :: (more ++ 0x65 :: s) := by
    cases more with
    | nil => rfl
    | cons d' more =>
      rw [if_neg (by simp), if_neg (List.cons_ne_nil _ _), List.append_assoc, List.append_assoc]
      rfl
  rw [written]
  unfold decimal?
  by_cases single : more = []
  · rw [if_pos single, mantissa?_whole first (List.cons_ne_nil _ _) (stops _) (by rintro after ⟨⟩)]
    simp only [Option.bind_eq_bind, Option.bind_some, exponent?_signed, single]
    simp
  · rw [if_neg single, mantissa?_point first (List.cons_ne_nil _ _) others (stops _)]
    simp only [Option.bind_eq_bind, Option.bind_some, exponent?_signed]
    congr 3
    rw [List.length_cons]
    omega

/-- Digits laid out with a point or an exponent denote what they denote behind a point, times a power of ten. -/
theorem decimal?_layout {digits : Bytes} (plain : digits.IsDigits) (filled : digits ≠ []) (point : Int) :
    decimal? (Binary64.layout digits point)
      = some ((Bytes.digitsValue digits : ℚ) * 10 ^ (point - digits.length)) := by
  have ten : (10 : ℚ) ≠ 0 := by norm_num
  have one : Bytes.IsDigits [Ascii.zero] := Bytes.isDigits_zeros 1
  unfold Binary64.layout
  dsimp only
  split
  · -- the point is behind the digits, perhaps with zeros between
    have zeros := Bytes.isDigits_zeros (point - digits.length).toNat
    change decimal? ((digits ++ _) ++ Ascii.dot :: [Ascii.zero]) = _
    rw [decimal?_point (plain.append zeros) (List.append_ne_nil_of_left_ne_nil filled _) one,
      List.append_assoc, ← List.replicate_succ', Bytes.digitsValue_append_zeros]
    congr 1
    push_cast
    rw [mul_assoc, ← zpow_natCast, ← zpow_add₀ ten]
    congr 2
    simp
    omega
  split
  · -- the point is among the digits
    have first : Bytes.IsDigits (digits.take point.toNat) := fun b mem => plain b (List.mem_of_mem_take mem)
    have last : Bytes.IsDigits (digits.drop point.toNat) := fun b mem => plain b (List.mem_of_mem_drop mem)
    have some : digits.take point.toNat ≠ [] := by
      rw [ne_eq, List.take_eq_nil_iff]
      exact not_or.mpr ⟨by omega, filled⟩
    rw [decimal?_point first some last, List.take_append_drop]
    congr 3
    rw [List.length_drop]
    omega
  split
  · -- the point is before the digits, perhaps with zeros between
    have zeros := Bytes.isDigits_zeros (-point).toNat
    have written : Bytes.ofString "0." ++ List.replicate (-point).toNat Ascii.zero ++ digits
        = [Ascii.zero] ++ Ascii.dot :: (List.replicate (-point).toNat Ascii.zero ++ digits) := by
      rw [List.append_assoc]
      rfl
    rw [written, decimal?_point one (List.cons_ne_nil _ _) (zeros.append plain), ← List.append_assoc,
      show [Ascii.zero] = List.replicate 1 Ascii.zero from rfl, ← List.replicate_add, Bytes.digitsValue_zeros_append]
    congr 3
    rw [List.length_append, List.length_replicate]
    omega
  · rw [decimal?_scientific plain filled, sub_add_cancel]

end Numeral

namespace Bytes

theorem exists_zeros_dropEndWhile (s : Bytes) :
    ∃ n, s = dropEndWhile (· == Ascii.zero) s ++ List.replicate n Ascii.zero := by
  obtain ⟨zeros, dropped, split⟩ := exists_dropEndWhile (· == Ascii.zero) s
  refine ⟨zeros.length, ?_⟩
  rwa [← List.eq_replicate_of_mem fun b mem => beq_iff_eq.mp (dropped b mem)]

theorem IsDigits.dropEndWhile {s : Bytes} (plain : s.IsDigits) (p : UInt8 → Bool) :
    IsDigits (Bytes.dropEndWhile p s) := fun b mem =>
  plain b (List.mem_reverse.mp ((List.dropWhile_suffix p).mem (List.mem_reverse.mp mem)))

end Bytes

namespace Binary64

/-- The text of a double without its sign. -/
def unsigned (x : Binary64) : Bytes :=
  if x.isZero then "0.0"
  else
    let digits := Bytes.ofNat x.shortest.digits
    layout (Bytes.dropEndWhile (· == Ascii.zero) digits) (digits.length + x.shortest.exponent)

theorem toBytes_eq (x : Binary64) :
    x.toBytes = (if x.negative then [Ascii.minus] else []) ++ x.unsigned := by
  unfold toBytes unsigned
  dsimp only
  split_ifs <;> rfl

theorem decimal?_unsigned_of_isZero {x : Binary64} (zero : x.mantissa = 0) :
    Numeral.decimal? x.unsigned = some 0 := by
  have one : Bytes.IsDigits [Ascii.zero] := Bytes.isDigits_zeros 1
  have isZero : x.isZero = true := beq_iff_eq.mpr zero
  unfold unsigned
  rw [if_pos isZero]
  change Numeral.decimal? ([Ascii.zero] ++ Ascii.dot :: [Ascii.zero]) = some 0
  rw [Numeral.decimal?_point one (List.cons_ne_nil _ _) one]
  change some ((Bytes.digitsValue (List.replicate 2 Ascii.zero) : ℚ) * _) = some 0
  rw [Bytes.digitsValue_zeros, Nat.cast_zero, zero_mul]

theorem decimal?_unsigned {x : Binary64} (filled : 0 < x.mantissa) :
    Numeral.decimal? x.unsigned = some x.shortest.value := by
  have nonzero : x.isZero = false := beq_false_of_ne filled.ne'
  have positive : 0 < x.shortest.value := (rounds_shortest filled).positive filled
  obtain ⟨n, split⟩ := Bytes.exists_zeros_dropEndWhile (Bytes.ofNat x.shortest.digits)
  unfold unsigned
  rw [if_neg (by rw [nonzero]; exact Bool.false_ne_true)]
  dsimp only
  generalize Bytes.dropEndWhile (· == Ascii.zero) (Bytes.ofNat x.shortest.digits) = kept at split ⊢
  have value : x.shortest.digits = Bytes.digitsValue kept * 10 ^ n := by
    rw [← Bytes.digitsValue_append_zeros, ← split, Bytes.digitsValue_ofNat]
  have plain : kept.IsDigits := fun b mem =>
    Bytes.isDigits_ofNat _ b (split ▸ List.mem_append_left _ mem)
  have some : kept ≠ [] := by
    rintro rfl
    unfold Decimal.value at positive
    rw [value] at positive
    simp [Bytes.digitsValue] at positive
  rw [Numeral.decimal?_layout plain some, split]
  unfold Decimal.value
  rw [value]
  congr 1
  push_cast
  rw [mul_assoc, ← zpow_natCast, ← zpow_add₀ (by norm_num)]
  congr 2
  rw [List.length_append, List.length_replicate]
  omega

/-- The text without the sign tells the magnitude. -/
theorem unsigned_injective {x y : Binary64} (same : x.unsigned = y.unsigned) :
    x.mantissa = y.mantissa ∧ x.exponent = y.exponent := by
  have values := congrArg Numeral.decimal? same
  rcases Nat.eq_zero_or_pos x.mantissa with zeroX | filledX <;>
    rcases Nat.eq_zero_or_pos y.mantissa with zeroY | filledY
  · have least (z : Binary64) (zero : z.mantissa = 0) : z.exponent = -1074 := by
      obtain ⟨-, -, -, full⟩ := z.canonical
      exact full.resolve_right (zero ▸ by decide)
    exact ⟨zeroX.trans zeroY.symm, (least x zeroX).trans (least y zeroY).symm⟩
  · rw [decimal?_unsigned_of_isZero zeroX, decimal?_unsigned filledY] at values
    exact absurd (Option.some.inj values) ((rounds_shortest filledY).positive filledY).ne
  · rw [decimal?_unsigned filledX, decimal?_unsigned_of_isZero zeroY] at values
    exact absurd (Option.some.inj values) ((rounds_shortest filledX).positive filledX).ne'
  · rw [decimal?_unsigned filledX, decimal?_unsigned filledY] at values
    have roundsY := rounds_shortest filledY
    rw [← Option.some.inj values] at roundsY
    exact (rounds_shortest filledX).eq roundsY

theorem unsigned_ne_minus (x : Binary64) (s : Bytes) : x.unsigned ≠ Ascii.minus :: s := by
  intro same
  have signed : Numeral.decimal? (Ascii.minus :: s) = none := rfl
  rw [← same] at signed
  rcases Nat.eq_zero_or_pos x.mantissa with zero | filled
  · cases (decimal?_unsigned_of_isZero zero).symm.trans signed
  · cases (decimal?_unsigned filled).symm.trans signed

/-- Different doubles have different texts. -/
theorem toBytes_injective : Function.Injective toBytes := by
  intro x y same
  rw [toBytes_eq, toBytes_eq] at same
  obtain ⟨signX, mantissaX, exponentX, canonicalX⟩ := x
  obtain ⟨signY, mantissaY, exponentY, canonicalY⟩ := y
  have ended (signs : signX = signY) (bodies : (⟨signX, mantissaX, exponentX, canonicalX⟩ : Binary64).unsigned
      = (⟨signY, mantissaY, exponentY, canonicalY⟩ : Binary64).unsigned) :
      (⟨signX, mantissaX, exponentX, canonicalX⟩ : Binary64) = ⟨signY, mantissaY, exponentY, canonicalY⟩ := by
    obtain ⟨rfl, rfl⟩ := unsigned_injective bodies
    cases signs
    rfl
  cases signX <;> cases signY
  · exact ended rfl same
  · exact absurd same (unsigned_ne_minus _ _)
  · exact absurd same.symm (unsigned_ne_minus _ _)
  · exact ended rfl (List.cons.inj same).2

end Binary64

/-! ## The bytes of numerals -/

namespace Numeral

/-- The bytes with which numbers are written. -/
def isPart (b : UInt8) : Bool :=
  Ascii.isDigit b || b == Ascii.minus || b == Ascii.plus || b == Ascii.dot || b == 0x65

theorem isPart_of_isDigits {s : Bytes} (plain : s.IsDigits) : ∀ b ∈ s, isPart b = true := by
  intro b mem
  unfold isPart
  rw [plain b mem]
  rfl

theorem isPart_ofInt (n : Int) : ∀ b ∈ Bytes.ofInt n, isPart b = true := by
  have digits := isPart_of_isDigits (Bytes.isDigits_ofNat n.natAbs)
  unfold Bytes.ofInt
  split_ifs
  · exact List.forall_mem_cons.mpr ⟨rfl, digits⟩
  · exact digits

theorem isPart_layout {digits : Bytes} (plain : digits.IsDigits) (point : Int) :
    ∀ b ∈ Binary64.layout digits point, isPart b = true := by
  have all := isPart_of_isDigits plain
  have zeros (n : Nat) := isPart_of_isDigits (Bytes.isDigits_zeros n)
  have first (n : Nat) : ∀ b ∈ digits.take n, isPart b = true := fun b mem => all b (List.mem_of_mem_take mem)
  have last (n : Nat) : ∀ b ∈ digits.drop n, isPart b = true := fun b mem => all b (List.mem_of_mem_drop mem)
  have exponent := isPart_of_isDigits (Bytes.isDigits_ofNatPadded 2 (point - 1).natAbs)
  unfold Binary64.layout
  dsimp only
  split
  · exact List.forall_mem_append.mpr ⟨List.forall_mem_append.mpr ⟨all, zeros _⟩, by decide +kernel⟩
  split
  · exact List.forall_mem_append.mpr ⟨first _, List.forall_mem_cons.mpr ⟨rfl, last _⟩⟩
  split
  · exact List.forall_mem_append.mpr ⟨List.forall_mem_append.mpr ⟨by decide +kernel, zeros _⟩, all⟩
  · refine List.forall_mem_append.mpr ⟨List.forall_mem_append.mpr ⟨List.forall_mem_append.mpr ⟨first 1, ?_⟩,
      by decide +kernel⟩, List.forall_mem_cons.mpr ⟨?_, exponent⟩⟩
    · split_ifs
      · exact List.forall_mem_nil _
      · exact List.forall_mem_cons.mpr ⟨rfl, last 1⟩
    · split_ifs <;> rfl

/-- A layout has a point or an exponent. -/
theorem marked_layout (digits : Bytes) (point : Int) :
    ∃ b ∈ Binary64.layout digits point, b = Ascii.dot ∨ b = 0x65 := by
  unfold Binary64.layout
  dsimp only
  split
  · exact ⟨Ascii.dot, List.mem_append_right _ (by decide), .inl rfl⟩
  split
  · exact ⟨Ascii.dot, List.mem_append_right _ List.mem_cons_self, .inl rfl⟩
  split
  · exact ⟨Ascii.dot, List.mem_append_left _ (List.mem_append_left _ (by decide)), .inl rfl⟩
  · exact ⟨0x65, List.mem_append_left _ (List.mem_append_right _ (by decide)), .inr rfl⟩

theorem isPart_toBytes (x : Binary64) : ∀ b ∈ x.toBytes, isPart b = true := by
  rw [Binary64.toBytes_eq]
  refine List.forall_mem_append.mpr ⟨?_, ?_⟩
  · split_ifs <;> decide +kernel
  · unfold Binary64.unsigned
    split_ifs
    · decide +kernel
    · exact isPart_layout ((Bytes.isDigits_ofNat _).dropEndWhile _) _

/-- The text of a double has a point or an exponent. -/
theorem marked_toBytes (x : Binary64) : ∃ b ∈ x.toBytes, b = Ascii.dot ∨ b = 0x65 := by
  have body : ∃ b ∈ x.unsigned, b = Ascii.dot ∨ b = 0x65 := by
    unfold Binary64.unsigned
    split_ifs
    · exact ⟨Ascii.dot, by decide, .inl rfl⟩
    · exact marked_layout _ _
  obtain ⟨b, mem, mark⟩ := body
  rw [Binary64.toBytes_eq]
  exact ⟨b, List.mem_append_right _ mem, mark⟩

/-- The text of a double is not the text of an integer. -/
theorem toBytes_ne_ofInt (x : Binary64) (n : Int) : x.toBytes ≠ Bytes.ofInt n := by
  have plain : ∀ b ∈ Bytes.ofInt n, b ≠ Ascii.dot ∧ b ≠ 0x65 := by
    have digits : ∀ b ∈ Bytes.ofNat n.natAbs, b ≠ Ascii.dot ∧ b ≠ 0x65 := by
      intro b mem
      have digit := Bytes.isDigits_ofNat _ b mem
      constructor <;> (rintro rfl; cases digit)
    unfold Bytes.ofInt
    split_ifs
    · exact List.forall_mem_cons.mpr ⟨by decide, digits⟩
    · exact digits
  intro same
  obtain ⟨b, mem, mark⟩ := marked_toBytes x
  obtain ⟨noDot, noE⟩ := plain b (same ▸ mem)
  exact mark.elim noDot noE

end Numeral

end TableQuery

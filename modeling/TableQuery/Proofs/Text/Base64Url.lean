import Mathlib.Data.List.Basic
import Mathlib.Tactic.IntervalCases
import TableQuery.Proofs.Text.Cut
import TableQuery.Text.Base64Url

/-!
# Base64 for URLs, there and back

Both directions keep bits that wait in a word, and what they do next depends on these bits and on what comes. Where the
encoder has taken in a byte and its symbols have not told all of it yet, the upper bits of that byte wait in the decoder
and the others in the encoder: `InFlight` says this of the two words, whatever stands above these bits. Each byte that
is taken in leads from one such state to the next, and the last symbol completes the byte that is in flight.

## What is proved

`Base64Url.InFlight.decodeFrom_encodeFrom`: a decoder fed by an encoder gives the byte in flight and all that follows.
`Base64Url.decode_encode_padded`: what is encoded decodes to itself, whatever padding follows.
`Base64Url.isSymbol_of_mem_encode`: it has symbols of the alphabet only.
`Base64Url.decode_of_stray`, `Base64Url.decode_of_left_over`: texts that are refused.
-/

namespace TableQuery

namespace Base64Url

/-! ## The alphabet -/

/-- The letters, the digits, the minus sign and the underscore. -/
def IsSymbol (b : UInt8) : Prop := Ascii.isAlnum b = true ∨ b = Ascii.minus ∨ b = Ascii.underscore

instance : DecidablePred IsSymbol := fun b =>
  inferInstanceAs (Decidable (Ascii.isAlnum b = true ∨ b = Ascii.minus ∨ b = Ascii.underscore))

/-- A symbol has the value it is made of, and is no padding. -/
theorem symbol_spec {n : Nat} (h : n < 64) :
    value? (symbol n) = some n ∧ IsSymbol (symbol n) ∧ symbol n ≠ Ascii.equals := by
  have all : ∀ n < 64, value? (symbol n) = some n ∧ IsSymbol (symbol n) ∧ symbol n ≠ Ascii.equals := by
    decide +kernel
  exact all n h

theorem isSymbol_of_value? {b : UInt8} {n : Nat} (valued : value? b = some n) : IsSymbol b := by
  unfold value? at valued
  unfold IsSymbol Ascii.isAlnum Ascii.isAlpha
  split_ifs at valued with upper lower digit minus underscore
  · simp [upper]
  · simp [lower]
  · simp [digit]
  · exact .inr (.inl (eq_of_beq minus))
  · exact .inr (.inr (eq_of_beq underscore))

/-! ## Words -/

theorem toNat_shiftRight (word : UInt32) {low : Nat} (h : low < 32) :
    (word >>> UInt32.ofNat low).toNat = word.toNat / 2 ^ low := by
  have small : low < UInt32.size := Nat.lt_trans h (by decide)
  rw [UInt32.toNat_shiftRight, UInt32.toNat_ofNat_of_lt' small, Nat.mod_eq_of_lt h, Nat.shiftRight_eq_div_pow]

theorem sextetAt_eq (word : UInt32) {low : Nat} (h : low < 32) : sextetAt word low = word.toNat / 2 ^ low % 2 ^ 6 := by
  rw [sextetAt, UInt32.toNat_and, toNat_shiftRight word h]
  exact Nat.and_two_pow_sub_one_eq_mod _ 6

theorem sextetAt_lt (word : UInt32) {low : Nat} (h : low < 32) : sextetAt word low < 64 := by
  rw [sextetAt_eq word h]
  exact Nat.mod_lt _ (by decide)

theorem toNat_octetAt (word : UInt32) {low : Nat} (h : low < 32) :
    (octetAt word low).toNat = word.toNat / 2 ^ low % 2 ^ 8 := by
  rw [octetAt, UInt32.toNat_toUInt8, toNat_shiftRight word h]

/-- What was in a word moves up by eight bits, and the upper eight of 32 fall off. -/
theorem toNat_takeByte (word : UInt32) (b : UInt8) :
    (takeByte word b).toNat = (word.toNat * 2 ^ 8 + b.toNat) % 2 ^ 32 := by
  rw [takeByte, UInt32.toNat_add, UInt32.toNat_shiftLeft, UInt8.toNat_toUInt32, Nat.mod_add_mod, Nat.shiftLeft_eq]
  rfl

theorem toNat_takeSextet (word : UInt32) {n : Nat} (h : n < 64) :
    (takeSextet word n).toNat = (word.toNat * 2 ^ 6 + n) % 2 ^ 24 := by
  have small : n < UInt32.size := Nat.lt_trans h (by decide)
  have mask (m : Nat) : m &&& UInt32.toNat 0xffffff = m % 2 ^ 24 := Nat.and_two_pow_sub_one_eq_mod m 24
  rw [takeSextet, UInt32.toNat_and, UInt32.toNat_add, UInt32.toNat_shiftLeft, UInt32.toNat_ofNat_of_lt' small,
    Nat.mod_add_mod, mask, Nat.shiftLeft_eq]
  exact Nat.mod_mod_of_dvd _ (by decide)

/-! ## Bits that wait -/

section

variable (word : UInt32) (b : UInt8) {low count : Nat} (six : low + count = 6) (few : count ≤ 4)
include six few

/-- The upper bits of the first symbol after a byte was taken in are those that waited. -/
theorem sextetAt_takeByte_div : sextetAt (takeByte word b) (count + 2) / 2 ^ low = word.toNat % 2 ^ count := by
  have hb := b.toNat_lt
  rw [sextetAt_eq _ (by omega), toNat_takeByte]
  obtain rfl : low = 6 - count := by omega
  clear six
  interval_cases count <;> omega

/-- The lower bits of this symbol are the upper ones of the byte. -/
theorem sextetAt_takeByte_mod : sextetAt (takeByte word b) (count + 2) % 2 ^ low = b.toNat / 2 ^ (count + 2) := by
  have hb := b.toNat_lt
  rw [sextetAt_eq _ (by omega), toNat_takeByte]
  obtain rfl : low = 6 - count := by omega
  clear six
  interval_cases count <;> omega

end

/-- The lower bits of a byte wait after it was taken in. -/
theorem toNat_takeByte_mod (word : UInt32) (b : UInt8) {count : Nat} (h : count ≤ 8) :
    (takeByte word b).toNat % 2 ^ count = b.toNat % 2 ^ count := by
  rw [toNat_takeByte]
  interval_cases count <;> omega

theorem toNat_takeSextet_mod (word : UInt32) {n : Nat} (small : n < 64) {count : Nat} (h : count ≤ 6) :
    (takeSextet word n).toNat % 2 ^ count = n % 2 ^ count := by
  rw [toNat_takeSextet word small]
  interval_cases count <;> omega

/-- A byte is complete when the symbol with its lower bits comes to the upper ones that wait. -/
theorem octetAt_takeSextet {word : UInt32} {n : Nat} (small : n < 64) {b : UInt8} {low count : Nat} (six : low + count = 6)
    (upper : word.toNat % 2 ^ (low + 2) = b.toNat / 2 ^ count) (lower : n / 2 ^ low = b.toNat % 2 ^ count) :
    octetAt (takeSextet word n) low = b := by
  have hb := b.toNat_lt
  refine UInt8.toNat_inj.mp ?_
  rw [toNat_octetAt _ (by omega), toNat_takeSextet word small]
  obtain rfl : count = 6 - low := by omega
  have bound : low ≤ 6 := by omega
  clear six
  interval_cases low <;> omega

/-! ## Steps of the decoder -/

section

variable {n : Nat} (small : n < 64) (word : UInt32) (rest : Bytes)
include small

theorem decodeFrom_of_few {count : Nat} (few : count < 2) :
    decodeFrom word count (symbol n :: rest) = decodeFrom (takeSextet word n) (count + 6) rest := by
  rw [decodeFrom, (symbol_spec small).1, Option.bind_eq_bind, Option.bind_some, if_pos (by omega)]

theorem decodeFrom_of_enough (low : Nat) {b : UInt8} (byte : octetAt (takeSextet word n) low = b) :
    decodeFrom word (low + 2) (symbol n :: rest) = (decodeFrom (takeSextet word n) low rest).map (b :: ·) := by
  rw [decodeFrom, (symbol_spec small).1, Option.bind_eq_bind, Option.bind_some, if_neg (by omega), Nat.add_sub_cancel,
    byte]
  cases decodeFrom (takeSextet word n) low rest <;> rfl

end

/-! ## A decoder fed by an encoder -/

/-- What an encoder and a decoder fed by it hold in the bits that wait in their words: no byte, or one of which the
symbols have told the upper six bits or the upper four. -/
inductive InFlight (word word' : UInt32) : (count count' : Nat) → Bytes → Prop
  | nothing : InFlight word word' 0 0 []
  | two (b : UInt8) (upper : word'.toNat % 2 ^ 6 = b.toNat / 2 ^ 2) (lower : word.toNat % 2 ^ 2 = b.toNat % 2 ^ 2) :
    InFlight word word' 2 6 [b]
  | four (b : UInt8) (upper : word'.toNat % 2 ^ 4 = b.toNat / 2 ^ 4) (lower : word.toNat % 2 ^ 4 = b.toNat % 2 ^ 4) :
    InFlight word word' 4 4 [b]

namespace InFlight

variable {word word' : UInt32} {count count' : Nat} {held : Bytes}

/-- The last symbol completes the byte in flight. -/
theorem decodeFrom_encodeFrom_nil (flight : InFlight word word' count count' held) :
    decodeFrom word' count' (encodeFrom word count []) = some held := by
  -- it is the symbol that a zero byte would have next
  have zero : word <<< 8 = takeByte word 0 := (UInt32.add_zero _).symm
  cases flight with
  | nothing => rfl
  | two b upper lower =>
    have small : sextetAt (takeByte word 0) 4 < 64 := sextetAt_lt _ (by decide)
    have byte : octetAt (takeSextet word' (sextetAt (takeByte word 0) 4)) 4 = b :=
      octetAt_takeSextet small rfl upper ((sextetAt_takeByte_div word 0 rfl (by decide)).trans lower)
    rw [encodeFrom, if_neg (by decide), zero]
    exact decodeFrom_of_enough small word' [] 4 byte
  | four b upper lower =>
    have small : sextetAt (takeByte word 0) 6 < 64 := sextetAt_lt _ (by decide)
    have byte : octetAt (takeSextet word' (sextetAt (takeByte word 0) 6)) 2 = b :=
      octetAt_takeSextet small rfl upper ((sextetAt_takeByte_div word 0 rfl (by decide)).trans lower)
    rw [encodeFrom, if_neg (by decide), zero]
    exact decodeFrom_of_enough small word' [] 2 byte

/-- One step with a byte that is taken in. What the decoder gives out, with what is in flight then, is what was in
flight, with that byte. -/
theorem exists_step (flight : InFlight word word' count count' held) (c : UInt8) (rest : Bytes) :
    ∃ word'' next next' told later, InFlight (takeByte word c) word'' next next' later
      ∧ decodeFrom word' count' (encodeFrom word count (c :: rest))
        = (decodeFrom word'' next' (encodeFrom (takeByte word c) next rest)).map (told ++ ·)
      ∧ told ++ later = held ++ [c] := by
  have small (low : Nat) (h : low < 32) : sextetAt (takeByte word c) low < 64 := sextetAt_lt _ h
  cases flight with
  | nothing =>
    have upper := (toNat_takeSextet_mod word' (small 2 (by decide)) (Nat.le_refl 6)).trans
      (sextetAt_takeByte_mod word c rfl (by decide))
    refine ⟨_, 2, 6, [], [c], .two c upper (toNat_takeByte_mod word c (by decide)), ?_, rfl⟩
    refine (decodeFrom_of_few (small 2 (by decide)) word' _ (by decide)).trans ?_
    exact Option.map_id'.symm
  | two b upper lower =>
    have byte := octetAt_takeSextet (small 4 (by decide)) rfl upper
      ((sextetAt_takeByte_div word c rfl (by decide)).trans lower)
    have upper' := (toNat_takeSextet_mod word' (small 4 (by decide)) (show 4 ≤ 6 by decide)).trans
      (sextetAt_takeByte_mod word c rfl (by decide))
    refine ⟨_, 4, 4, [b], [c], .four c upper' (toNat_takeByte_mod word c (by decide)), ?_, rfl⟩
    exact decodeFrom_of_enough (small 4 (by decide)) word' _ 4 byte
  | four b upper lower =>
    -- of the two symbols, the second completes the byte that is taken in
    have byte := octetAt_takeSextet (small 6 (by decide)) rfl upper
      ((sextetAt_takeByte_div word c rfl (by decide)).trans lower)
    have upper' := (toNat_takeSextet_mod word' (small 6 (by decide)) (show 2 ≤ 6 by decide)).trans
      (sextetAt_takeByte_mod word c rfl (by decide))
    have rest' : sextetAt (takeByte word c) 0 / 2 ^ 0 = c.toNat % 2 ^ 6 := by
      rw [Nat.pow_zero, Nat.div_one, sextetAt_eq _ (by decide), Nat.pow_zero, Nat.div_one]
      exact toNat_takeByte_mod word c (by decide)
    have byte' := octetAt_takeSextet (small 0 (by decide)) rfl upper' rest'
    refine ⟨takeSextet (takeSextet word' (sextetAt (takeByte word c) 6)) (sextetAt (takeByte word c) 0), 0, 0, [b, c], [],
      .nothing, ?_, rfl⟩
    refine (decodeFrom_of_enough (small 6 (by decide)) word' _ 2 byte).trans ?_
    refine (congrArg (Option.map (b :: ·)) (decodeFrom_of_enough (small 0 (by decide)) _ _ 0 byte')).trans ?_
    rw [Option.map_map]
    rfl

theorem decodeFrom_encodeFrom (flight : InFlight word word' count count' held) (s : Bytes) :
    decodeFrom word' count' (encodeFrom word count s) = some (held ++ s) := by
  induction s generalizing word word' count count' held with
  | nil => rw [flight.decodeFrom_encodeFrom_nil, List.append_nil]
  | cons c rest ih =>
    obtain ⟨word'', next, next', told, later, flight', step, kept⟩ := flight.exists_step c rest
    rw [step, ih flight', Option.map_some, ← List.append_assoc, kept, List.append_assoc]
    rfl

end InFlight

/-! ## Texts -/

/-- Bits are filled into symbols of values below 64, until too few are left for another. -/
theorem fill_spec (word : UInt32) {count : Nat} (h : count < 32) :
    (∀ b ∈ (fill word count).1, ∃ n < 64, b = symbol n) ∧ (fill word count).2 < 6
      ∧ 6 * (fill word count).1.length + (fill word count).2 = count := by
  induction count using Nat.strongRecOn with
  | ind count ih =>
    unfold fill
    split
    · next low =>
      obtain ⟨symbols, left, total⟩ := ih low (by omega) (by omega)
      refine ⟨List.forall_mem_cons.mpr ⟨⟨_, sextetAt_lt word (by omega), rfl⟩, symbols⟩, left, ?_⟩
      show 6 * ((fill word low).1.length + 1) + (fill word low).2 = low + 6
      omega
    · next few =>
      refine ⟨List.forall_mem_nil _, ?_, Nat.zero_add count⟩
      by_contra many
      exact few (count - 6) (by omega)

theorem encodeFrom_cons (word : UInt32) (count : Nat) (b : UInt8) (rest : Bytes) :
    encodeFrom word count (b :: rest) = (fill (takeByte word b) (count + 8)).1
      ++ encodeFrom (takeByte word b) (fill (takeByte word b) (count + 8)).2 rest := rfl

/-- Whatever waits, the text of a byte string has symbols of values below 64. -/
theorem exists_of_mem_encodeFrom {word : UInt32} {count : Nat} (few : count < 6) {s : Bytes} {b : UInt8}
    (mem : b ∈ encodeFrom word count s) : ∃ n < 64, b = symbol n := by
  induction s generalizing word count with
  | nil =>
    rw [encodeFrom] at mem
    split_ifs at mem
    · cases mem
    · exact ⟨_, sextetAt_lt _ (by omega), List.mem_singleton.mp mem⟩
  | cons c rest ih =>
    obtain ⟨symbols, left, -⟩ := fill_spec (takeByte word c) (show count + 8 < 32 by omega)
    rw [encodeFrom_cons] at mem
    rcases List.mem_append.mp mem with mem | mem
    · exact symbols b mem
    · exact ih left mem

/-- There is a symbol for each six bits, and one for what is left. -/
theorem length_encodeFrom (word : UInt32) {count : Nat} (few : count < 6) (s : Bytes) :
    (encodeFrom word count s).length = (count + 8 * s.length + 5) / 6 := by
  induction s generalizing word count with
  | nil =>
    rw [encodeFrom]
    split_ifs with none
    · rw [none]
      rfl
    · rw [List.length_singleton, List.length_nil]
      omega
  | cons c rest ih =>
    obtain ⟨-, left, total⟩ := fill_spec (takeByte word c) (show count + 8 < 32 by omega)
    rw [encodeFrom_cons, List.length_append, ih _ left, List.length_cons]
    omega

theorem isSymbol_of_mem_encode {s : Bytes} {b : UInt8} (mem : b ∈ encode s) : IsSymbol b := by
  obtain ⟨n, small, rfl⟩ := exists_of_mem_encodeFrom (by decide) mem
  exact (symbol_spec small).2.1

/-- What is encoded decodes to itself, with any padding. -/
theorem decode_encode_padded {s : Bytes} (filled : s ≠ []) (n : Nat) :
    decode (encode s ++ List.replicate n Ascii.equals) = some s := by
  have unpadded : ∀ b ∈ encode s, (b == Ascii.equals) = false := by
    intro b mem
    obtain ⟨n, small, rfl⟩ := exists_of_mem_encodeFrom (by decide) mem
    exact beq_false_of_ne (symbol_spec small).2.2
  have padding : ∀ b ∈ List.replicate n Ascii.equals, (b == Ascii.equals) = true := by
    intro b mem
    rw [List.eq_of_mem_replicate mem]
    rfl
  have told : decodeFrom 0 0 (encode s) = some s := InFlight.nothing.decodeFrom_encodeFrom s
  have length : (encode s).length = (0 + 8 * s.length + 5) / 6 := length_encodeFrom 0 (by decide) s
  have some_byte : 0 < s.length := List.length_pos_iff.mpr filled
  have kept : ¬((encode s).isEmpty || (encode s).length % 4 == 1) = true := by
    rw [Bool.or_eq_true, List.isEmpty_iff_length_eq_zero, beq_iff_eq]
    omega
  unfold decode
  dsimp only
  rw [Bytes.dropEndWhile_append unpadded padding, told, if_neg kept]

theorem decode_encode {s : Bytes} (filled : s ≠ []) : decode (encode s) = some s := by
  have plain := decode_encode_padded filled 0
  rwa [List.replicate_zero, List.append_nil] at plain

/-! ## Texts that are refused -/

/-- A byte outside the alphabet is found wherever it stands. -/
theorem decodeFrom_of_stray {b : UInt8} (stray : ¬IsSymbol b) {text : Bytes} (mem : b ∈ text) (word : UInt32)
    (count : Nat) : decodeFrom word count text = none := by
  induction text generalizing word count with
  | nil => cases mem
  | cons c rest ih =>
    rw [decodeFrom]
    cases valued : value? c with
    | none => rfl
    | some n =>
      have other : b ≠ c := fun same => stray (same ▸ isSymbol_of_value? valued)
      have mem : b ∈ rest := (List.mem_cons.mp mem).resolve_left other
      rw [Option.bind_eq_bind, Option.bind_some]
      dsimp only
      rw [ih mem, ih mem]
      exact ite_self _

theorem decode_of_stray {b : UInt8} (stray : ¬IsSymbol b) {text : Bytes}
    (mem : b ∈ Bytes.dropEndWhile (· == Ascii.equals) text) : decode text = none := by
  unfold decode
  dsimp only
  rw [decodeFrom_of_stray stray mem]
  exact ite_self _

theorem decode_of_left_over {text : Bytes} (one : (Bytes.dropEndWhile (· == Ascii.equals) text).length % 4 = 1) :
    decode text = none := by
  unfold decode
  dsimp only
  rw [one, beq_self_eq_true, Bool.or_true, if_pos rfl]

end Base64Url

end TableQuery

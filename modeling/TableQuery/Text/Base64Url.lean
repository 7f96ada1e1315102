import TableQuery.Text.Bytes

/-!
# Base64 for URLs

The unpadded base64 of RFC 4648, section 5, in which a symbol carries six bits. Both directions take bits into a word
of 32 at its lower end and give them out from above. The bits that wait are the low ones, as many as a counter says;
what stands above them was given out before and is not read again, so it may fall off the word.

At the end of a text the bits that wait are the upper ones of a last symbol, whose other bits are zero. `decode` drops
trailing padding, and refuses the empty text, a symbol outside the alphabet and a single symbol left over. The bits that
wait at its end are dropped, not checked.
-/

namespace TableQuery

namespace Base64Url

/-- The symbol of a six-bit value. -/
def symbol (n : Nat) : UInt8 :=
  if n < 26 then UInt8.ofNat (0x41 + n)
  else if n < 52 then UInt8.ofNat (0x61 + (n - 26))
  else if n < 62 then UInt8.ofNat (0x30 + (n - 52))
  else if n = 62 then Ascii.minus
  else Ascii.underscore

/-- The six-bit value of a symbol. -/
def value? (b : UInt8) : Option Nat :=
  if Ascii.isUpper b then some (b.toNat - 0x41)
  else if Ascii.isLower b then some (b.toNat - 0x61 + 26)
  else if Ascii.isDigit b then some (b.toNat - 0x30 + 52)
  else if b == Ascii.minus then some 62
  else if b == Ascii.underscore then some 63
  else none

/-! ## Words -/

/-- Takes a byte into a word. -/
def takeByte (word : UInt32) (b : UInt8) : UInt32 := (word <<< 8) + b.toUInt32

/-- Takes a six-bit value into a word, of which 24 bits are kept. -/
def takeSextet (word : UInt32) (n : Nat) : UInt32 := (word <<< 6) + UInt32.ofNat n &&& 0xffffff

/-- The six bits of a word above the lowest ones. -/
def sextetAt (word : UInt32) (low : Nat) : Nat := (word >>> UInt32.ofNat low &&& 0x3f).toNat

/-- The eight bits of a word above the lowest ones. -/
def octetAt (word : UInt32) (low : Nat) : UInt8 := (word >>> UInt32.ofNat low).toUInt8

/-! ## Texts -/

/-- The symbols that so many bits of a word fill, and how many bits are left. -/
def fill (word : UInt32) : Nat → Bytes × Nat
  | low + 6 =>
    let (symbols, left) := fill word low
    (symbol (sextetAt word low) :: symbols, left)
  | count => ([], count)

/-- The symbols of so many bits of a word and a byte string after them. -/
def encodeFrom (word : UInt32) (count : Nat) : Bytes → Bytes
  | [] => if count = 0 then [] else [symbol (sextetAt (word <<< 8) (count + 2))]
  | b :: rest =>
    let word := takeByte word b
    let (symbols, left) := fill word (count + 8)
    symbols ++ encodeFrom word left rest

/-- The symbols of a byte string. -/
def encode (s : Bytes) : Bytes := encodeFrom 0 0 s

/-- The bytes of so many bits of a word and a text of symbols after them. -/
def decodeFrom (word : UInt32) (count : Nat) : Bytes → Option Bytes
  | [] => some []
  | b :: rest => do
    let word := takeSextet word (← value? b)
    if count + 6 < 8 then decodeFrom word (count + 6) rest
    else return octetAt word (count - 2) :: (← decodeFrom word (count - 2) rest)

/-- The bytes that a text of symbols stands for. -/
def decode (text : Bytes) : Option Bytes :=
  let symbols := Bytes.dropEndWhile (· == Ascii.equals) text
  if symbols.isEmpty || symbols.length % 4 == 1 then none else decodeFrom 0 0 symbols

end Base64Url

end TableQuery

import TableQuery.Text.Ascii

/-!
# Byte strings

Every text this library reads, compares or prints is a list of bytes, the carrier on which its laws are
proved by induction. Lengths and cuts count bytes, case is ASCII case, and two texts are ordered by
their bytes from the left, a text before its extensions.

`splitOn` cuts at every separator and is never empty; `cut` cuts at the first one only.
-/

namespace TableQuery

/-- A text, as the list of its bytes. -/
abbrev Bytes := List UInt8

namespace Bytes

/-- The bytes of a written text. -/
def ofString (s : String) : Bytes := s.toUTF8.data.toList

instance : Coe String Bytes := ⟨ofString⟩

/-! ## Numbers as text -/

/-- The decimal digits of a natural number, without leading zeros. -/
def ofNat (n : Nat) : Bytes := (Nat.toDigits 10 n).map fun c => c.val.toUInt8

/-- The decimal text of an integer, a minus sign before a negative one. -/
def ofInt (n : Int) : Bytes :=
  if n < 0 then Ascii.minus :: ofNat n.natAbs else ofNat n.natAbs

/-- A natural number in at least `width` digits, zeros in front. -/
def ofNatPadded (width n : Nat) : Bytes :=
  let digits := ofNat n
  List.replicate (width - digits.length) Ascii.zero ++ digits

/-- The number that a text of decimal digits denotes. -/
def digitsValue (s : Bytes) : Nat := s.foldl (fun acc b => acc * 10 + Ascii.digitValue b) 0

/-- Two small hexadecimal digits for each byte. -/
def toHex (s : Bytes) : Bytes :=
  s.flatMap fun b => [Ascii.hexDigit (b.toNat / 16), Ascii.hexDigit (b.toNat % 16)]

/-! ## Case, cuts and searches -/

/-- Every capital made small. -/
def toLower (s : Bytes) : Bytes := s.map Ascii.toLower

/-- Every small letter made capital. -/
def toUpper (s : Bytes) : Bytes := s.map Ascii.toUpper

/-- Drops the bytes of a class from the end. -/
def dropEndWhile (p : UInt8 → Bool) (s : Bytes) : Bytes := (s.reverse.dropWhile p).reverse

/-- Drops the bytes of a class from both ends. -/
def trim (p : UInt8 → Bool) (s : Bytes) : Bytes := dropEndWhile p (s.dropWhile p)

/-- The pieces between the separators, one more than there are separators. -/
def splitOn (sep : UInt8) : Bytes → List Bytes
  | [] => [[]]
  | b :: rest =>
    if b == sep then [] :: splitOn sep rest
    else match splitOn sep rest with
      | [] => [[b]]
      | piece :: pieces => (b :: piece) :: pieces

/-- The text before and after the first separator. -/
def cut (sep : UInt8) : Bytes → Option (Bytes × Bytes)
  | [] => none
  | b :: rest =>
    if b == sep then some ([], rest)
    else (cut sep rest).map fun (before, after) => (b :: before, after)

/-- The pieces, joined with the separator between them. -/
def join (sep : Bytes) (pieces : List Bytes) : Bytes := List.intercalate sep pieces

/-- Whether a text begins with another. -/
def startsWith (s start : Bytes) : Bool := start.isPrefixOf s

/-- Whether a text occurs within another. -/
def occursIn (needle : Bytes) : Bytes → Bool
  | [] => needle.isEmpty
  | b :: rest => needle.isPrefixOf (b :: rest) || occursIn needle rest

/-- The text around the first occurrence of another. -/
def cutAt (needle : Bytes) : Bytes → Option (Bytes × Bytes)
  | [] => if needle.isEmpty then some ([], []) else none
  | b :: rest =>
    if needle.isPrefixOf (b :: rest) then some ([], (b :: rest).drop needle.length)
    else (cutAt needle rest).map fun (before, after) => (b :: before, after)

/-! ## Small laws -/

theorem splitOn_ne_nil (sep : UInt8) (s : Bytes) : splitOn sep s ≠ [] := by
  cases s with
  | nil => simp [splitOn]
  | cons b rest =>
    rw [splitOn]
    split
    · simp
    · split <;> simp

@[simp] theorem length_toLower (s : Bytes) : (toLower s).length = s.length := by simp [toLower]

@[simp] theorem length_toUpper (s : Bytes) : (toUpper s).length = s.length := by simp [toUpper]

end Bytes

end TableQuery

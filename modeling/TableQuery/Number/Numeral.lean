import TableQuery.Number.Binary64

/-!
# Numerals in text

Two grammars of numbers as people type them. `integer?` reads an optional sign and decimal digits.
`double?` reads the decimal forms `12`, `.5`, `5.`, `1e-3` and the hexadecimal forms `0x1f`, `0x.8p3`,
with an optional sign. Both want the whole text: anything left over refuses it. A numeral whose double
would be infinite is refused as well, and so are the words for infinity and for not-a-number.
-/

namespace TableQuery

namespace Numeral

/-- An optional sign at the start: whether it is a minus, and what follows. -/
def sign (s : Bytes) : Bool × Bytes :=
  match s with
  | Ascii.minus :: rest => (true, rest)
  | Ascii.plus :: rest => (false, rest)
  | _ => (false, s)

/-- The digits at the start, and what follows. -/
def span (digit : UInt8 → Bool) (s : Bytes) : Bytes × Bytes := (s.takeWhile digit, s.dropWhile digit)

/-- An integer in decimal digits, of any size. -/
def integer? (s : Bytes) : Option Int :=
  let (negative, digits) := sign s
  if digits.isEmpty || !digits.all Ascii.isDigit then none
  else
    let n : Int := Bytes.digitsValue digits
    some (if negative then -n else n)

/-- The digits before and after an optional point, and what follows; at least one digit. -/
def mantissa? (digit : UInt8 → Bool) (s : Bytes) : Option (Bytes × Bytes × Bytes) :=
  let (whole, rest) := span digit s
  let (fraction, rest) := match rest with
    | Ascii.dot :: after => span digit after
    | _ => ([], rest)
  if whole.isEmpty && fraction.isEmpty then none else some (whole, fraction, rest)

/-- An optional exponent, up to the end of the text. -/
def exponent? (isMark : UInt8 → Bool) (s : Bytes) : Option Int :=
  match s with
  | [] => some 0
  | mark :: rest => if isMark mark then integer? rest else none

/-- The value of hexadecimal digits. -/
def hexDigitsValue (s : Bytes) : Nat :=
  s.foldl (fun acc b => acc * 16 + (Ascii.hexValue? b).getD 0) 0

/-- A double, the nearest to the number that the text denotes. -/
def double? (s : Bytes) : Option Binary64 :=
  let (negative, body) := sign s
  match body with
  | 0x30 :: x :: rest =>
    if Ascii.toLower x == 0x78 then do
      let (whole, fraction, rest) ← mantissa? Ascii.isHexDigit rest
      let e ← exponent? (fun b => Ascii.toLower b == 0x70) rest
      Binary64.ofBinary? negative (hexDigitsValue (whole ++ fraction)) (e - 4 * fraction.length)
    else decimal negative body
  | _ => decimal negative body
where
  /-- The decimal forms. -/
  decimal (negative : Bool) (body : Bytes) : Option Binary64 := do
    let (whole, fraction, rest) ← mantissa? Ascii.isDigit body
    let e ← exponent? (fun b => Ascii.toLower b == 0x65) rest
    Binary64.ofDecimal? negative (whole ++ fraction) (e - fraction.length)

end Numeral

end TableQuery

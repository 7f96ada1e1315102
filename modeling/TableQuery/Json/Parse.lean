import TableQuery.Json.Basic
import TableQuery.Number.Numeral
import TableQuery.Text.Utf8

/-!
# Reading JSON text

A strict reader: no comments, no trailing commas, no blanks but space, tab, line feed and carriage
return, no unescaped control characters, no lone surrogates, no ill-formed UTF-8. A byte order mark in
front is skipped. A number without point and exponent is an integer if it lies between the least signed
and the greatest unsigned 64-bit integer; any other number is a double, and a double that would be
infinite is refused.

`parse?` reads a text that is one value, where a zero byte after the value ends the text. `parseFirst?`
reads the value that a text begins with, whatever follows.

The reader goes down on a count of steps; `parseFirst?` gives it more than the text can use, two for
each byte.
-/

namespace TableQuery

namespace Json

/-! ## Strings -/

/-- The value of four hexadecimal digits. -/
def fourHex? (a b c d : UInt8) : Option Nat := do
  let a ← Ascii.hexValue? a
  let b ← Ascii.hexValue? b
  let c ← Ascii.hexValue? c
  let d ← Ascii.hexValue? d
  return ((a * 16 + b) * 16 + c) * 16 + d

/-- The byte that a one-letter escape stands for. -/
def simpleEscape? (b : UInt8) : Option UInt8 :=
  if b == Ascii.doubleQuote || b == Ascii.backslash || b == Ascii.slash then some b
  else if b == 0x62 then some 0x08
  else if b == 0x66 then some Ascii.formFeed
  else if b == 0x6e then some Ascii.newline
  else if b == 0x72 then some Ascii.carriageReturn
  else if b == 0x74 then some Ascii.tab
  else none

/-- Puts bytes in front of a string read so far. -/
def prepend (bytes : Bytes) (read : Option (Bytes × Bytes)) : Option (Bytes × Bytes) :=
  read.map fun (s, rest) => (bytes ++ s, rest)

/-- Whether a code unit opens a surrogate pair. -/
def isHighSurrogate (u : Nat) : Bool := 0xd800 ≤ u && u ≤ 0xdbff

/-- Whether a code unit closes a surrogate pair. -/
def isLowSurrogate (u : Nat) : Bool := 0xdc00 ≤ u && u ≤ 0xdfff

/-- The rest of a string after its opening quote, unescaped, and what follows its closing quote. -/
def stringRest : Bytes → Option (Bytes × Bytes)
  | [] => none
  | Ascii.doubleQuote :: rest => some ([], rest)
  | Ascii.backslash :: 0x75 :: a :: b :: c :: d :: rest =>
    match fourHex? a b c d with
    | none => none
    | some u =>
      if isHighSurrogate u then
        match rest with
        | Ascii.backslash :: 0x75 :: e :: f :: g :: h :: rest =>
          match fourHex? e f g h with
          | none => none
          | some v =>
            if isLowSurrogate v then
              prepend (Utf8.encode (0x10000 + (u - 0xd800) * 0x400 + (v - 0xdc00))) (stringRest rest)
            else none
        | _ => none
      else if isLowSurrogate u then none
      else prepend (Utf8.encode u) (stringRest rest)
  | Ascii.backslash :: b :: rest =>
    match simpleEscape? b with
    | some byte => prepend [byte] (stringRest rest)
    | none => none
  | b :: rest => if b < 0x20 || b == Ascii.backslash then none else prepend [b] (stringRest rest)
termination_by structural s => s

/-- A string after its opening quote; its bytes must be well-formed UTF-8. -/
def string? (s : Bytes) : Option (Bytes × Bytes) :=
  match stringRest s with
  | some (text, rest) => if Utf8.wellFormed text then some (text, rest) else none
  | none => none

/-! ## Numbers -/

/-- At least one digit, and what follows. -/
def digits? (s : Bytes) : Option (Bytes × Bytes) :=
  let (digits, rest) := Numeral.span Ascii.isDigit s
  if digits.isEmpty then none else some (digits, rest)

/-- The whole part: a zero alone, or digits that begin with another. -/
def whole? (s : Bytes) : Option (Bytes × Bytes) :=
  match s with
  | Ascii.zero :: rest => some ([Ascii.zero], rest)
  | _ => digits? s

/-- The number that whole digits alone denote. -/
def wholeNumber? (negative : Bool) (digits : Bytes) : Option Json :=
  let magnitude : Int := Bytes.digitsValue digits
  let n := if negative then -magnitude else magnitude
  if Int64.minValue.toInt ≤ n ∧ n < UInt64.size then some (.int n)
  else (Binary64.ofDecimal? negative digits 0).map .float

/-- A number at the start of a text, and what follows. -/
def number? (s : Bytes) : Option (Json × Bytes) := do
  let negative := s.head? == some Ascii.minus
  let (whole, rest) ← whole? (if negative then s.tail else s)
  let (fraction, rest) ← match rest with
    | Ascii.dot :: after => digits? after
    | _ => some ([], rest)
  let (exponent, rest) ← match rest with
    | 0x65 :: after | 0x45 :: after => do
      let (down, after) := Numeral.sign after
      let (digits, after) ← digits? after
      let e : Int := Bytes.digitsValue digits
      some (some (if down then -e else e), after)
    | _ => some (none, rest)
  if fraction.isEmpty && exponent.isNone then
    return (← wholeNumber? negative whole, rest)
  else
    let x ← Binary64.ofDecimal? negative (whole ++ fraction) (exponent.getD 0 - fraction.length)
    return (.float x, rest)

/-! ## Values -/

/-- The blanks between tokens. -/
def isBlank (b : UInt8) : Bool :=
  b == Ascii.space || b == Ascii.tab || b == Ascii.newline || b == Ascii.carriageReturn

/-- Drops the blanks at the start. -/
def skipBlanks (s : Bytes) : Bytes := s.dropWhile isBlank

/-- What follows a word at the start of a text. -/
def afterWord? (word s : Bytes) : Option Bytes :=
  if word.isPrefixOf s then some (s.drop word.length) else none

/-- A word or a number at the start of a text, and what follows. -/
def atom? (s : Bytes) : Option (Json × Bytes) :=
  match afterWord? "null" s, afterWord? "true" s, afterWord? "false" s with
  | some rest, _, _ => some (.null, rest)
  | _, some rest, _ => some (.bool true, rest)
  | _, _, some rest => some (.bool false, rest)
  | none, none, none => number? s

mutual

/-- A value at the start of a text, and what follows. -/
def value? : Nat → Bytes → Option (Json × Bytes)
  | 0, _ => none
  | steps + 1, s =>
    match skipBlanks s with
    | Ascii.leftBracket :: rest =>
      match skipBlanks rest with
      | Ascii.rightBracket :: after => some (.arr [], after)
      | _ => (items? steps rest).map fun (items, after) => (.arr items, after)
    | Ascii.leftBrace :: rest =>
      match skipBlanks rest with
      | Ascii.rightBrace :: after => some (.obj [], after)
      | _ => (members? steps rest).map fun (members, after) => (record members, after)
    | Ascii.doubleQuote :: rest => (string? rest).map fun (text, after) => (.str text, after)
    | body => atom? body

/-- The items of an array up to its closing bracket, and what follows. -/
def items? : Nat → Bytes → Option (List Json × Bytes)
  | 0, _ => none
  | steps + 1, s =>
    match value? steps s with
    | none => none
    | some (item, rest) =>
      match skipBlanks rest with
      | Ascii.comma :: after => (items? steps after).map fun (items, after) => (item :: items, after)
      | Ascii.rightBracket :: after => some ([item], after)
      | _ => none

/-- The members of an object up to its closing brace, and what follows. -/
def members? : Nat → Bytes → Option (List (Bytes × Json) × Bytes)
  | 0, _ => none
  | steps + 1, s =>
    match skipBlanks s with
    | Ascii.doubleQuote :: rest =>
      match string? rest with
      | none => none
      | some (key, rest) =>
        match skipBlanks rest with
        | Ascii.colon :: rest =>
          match value? steps rest with
          | none => none
          | some (value, rest) =>
            match skipBlanks rest with
            | Ascii.comma :: after =>
              (members? steps after).map fun (members, after) => ((key, value) :: members, after)
            | Ascii.rightBrace :: after => some ([(key, value)], after)
            | _ => none
        | _ => none
    | _ => none

end

/-- A text without the byte order mark in front; none if the mark is incomplete. -/
def skipMark? (s : Bytes) : Option Bytes :=
  match s with
  | 0xef :: 0xbb :: 0xbf :: rest => some rest
  | 0xef :: _ => none
  | _ => some s

/-- The value that a text begins with, and what follows. -/
def parseFirst? (s : Bytes) : Option (Json × Bytes) := do
  value? (2 * s.length + 2) (← skipMark? s)

/-- The value that a text is. -/
def parse? (s : Bytes) : Option Json := do
  let (value, rest) ← parseFirst? s
  match skipBlanks rest with
  | [] | 0 :: _ => some value
  | _ => none

end Json

end TableQuery

/-!
# ASCII

The bytes that punctuate names, SQL and JSON, the classes of ASCII characters, and ASCII case. A byte
above 127 belongs to no class and has no case, so text in any encoding that extends ASCII passes
through unchanged.
-/

namespace TableQuery

namespace Ascii

/-! ## Named bytes -/

@[match_pattern] abbrev tab : UInt8 := 0x09
@[match_pattern] abbrev newline : UInt8 := 0x0a
@[match_pattern] abbrev verticalTab : UInt8 := 0x0b
@[match_pattern] abbrev formFeed : UInt8 := 0x0c
@[match_pattern] abbrev carriageReturn : UInt8 := 0x0d
@[match_pattern] abbrev space : UInt8 := 0x20
@[match_pattern] abbrev bang : UInt8 := 0x21
@[match_pattern] abbrev doubleQuote : UInt8 := 0x22
@[match_pattern] abbrev dollar : UInt8 := 0x24
@[match_pattern] abbrev percent : UInt8 := 0x25
@[match_pattern] abbrev quote : UInt8 := 0x27
@[match_pattern] abbrev leftParen : UInt8 := 0x28
@[match_pattern] abbrev rightParen : UInt8 := 0x29
@[match_pattern] abbrev star : UInt8 := 0x2a
@[match_pattern] abbrev plus : UInt8 := 0x2b
@[match_pattern] abbrev comma : UInt8 := 0x2c
@[match_pattern] abbrev minus : UInt8 := 0x2d
@[match_pattern] abbrev dot : UInt8 := 0x2e
@[match_pattern] abbrev slash : UInt8 := 0x2f
@[match_pattern] abbrev zero : UInt8 := 0x30
@[match_pattern] abbrev colon : UInt8 := 0x3a
@[match_pattern] abbrev equals : UInt8 := 0x3d
@[match_pattern] abbrev question : UInt8 := 0x3f
@[match_pattern] abbrev leftBracket : UInt8 := 0x5b
@[match_pattern] abbrev backslash : UInt8 := 0x5c
@[match_pattern] abbrev rightBracket : UInt8 := 0x5d
@[match_pattern] abbrev underscore : UInt8 := 0x5f
@[match_pattern] abbrev backquote : UInt8 := 0x60
@[match_pattern] abbrev leftBrace : UInt8 := 0x7b
@[match_pattern] abbrev rightBrace : UInt8 := 0x7d

/-! ## Classes -/

/-- The decimal digits. -/
def isDigit (b : UInt8) : Bool := 0x30 ≤ b && b ≤ 0x39

/-- The capital letters. -/
def isUpper (b : UInt8) : Bool := 0x41 ≤ b && b ≤ 0x5a

/-- The small letters. -/
def isLower (b : UInt8) : Bool := 0x61 ≤ b && b ≤ 0x7a

/-- The letters. -/
def isAlpha (b : UInt8) : Bool := isUpper b || isLower b

/-- The letters and digits. -/
def isAlnum (b : UInt8) : Bool := isAlpha b || isDigit b

/-- The letters and the underscore, with which a name may start. -/
def isNameStart (b : UInt8) : Bool := isAlpha b || b == underscore

/-- The letters, the digits and the underscore, with which a name may go on. -/
def isNameRest (b : UInt8) : Bool := isAlnum b || b == underscore

/-- The blank characters: space, and tab to carriage return. -/
def isSpace (b : UInt8) : Bool := b == space || (0x09 ≤ b && b ≤ 0x0d)

/-- The control characters: below the space, and delete. -/
def isControl (b : UInt8) : Bool := b < 0x20 || b == 0x7f

/-- The value of a decimal digit; meaningful on digits only. -/
def digitValue (b : UInt8) : Nat := b.toNat - 0x30

/-- The value of a hexadecimal digit of either case. -/
def hexValue? (b : UInt8) : Option Nat :=
  if isDigit b then some (b.toNat - 0x30)
  else if 0x61 ≤ b && b ≤ 0x66 then some (b.toNat - 0x61 + 10)
  else if 0x41 ≤ b && b ≤ 0x46 then some (b.toNat - 0x41 + 10)
  else none

/-- The hexadecimal digits. -/
def isHexDigit (b : UInt8) : Bool := (hexValue? b).isSome

/-- The small hexadecimal digit of a value below 16. -/
def hexDigit (n : Nat) : UInt8 := if n < 10 then UInt8.ofNat (0x30 + n) else UInt8.ofNat (0x57 + n)

/-! ## Case -/

/-- The small letter of a capital; every other byte is itself. -/
def toLower (b : UInt8) : UInt8 := if isUpper b then b + 0x20 else b

/-- The capital of a small letter; every other byte is itself. -/
def toUpper (b : UInt8) : UInt8 := if isLower b then b - 0x20 else b

end Ascii

end TableQuery

import TableQuery.Json.Basic
import TableQuery.Number.Shortest

/-!
# Writing JSON

`compact` writes a value on one line without blanks; `pretty` writes one item a line, two blanks a level,
with empty arrays and objects closed at once. Both escape the quote, the backslash and the control
characters below the blank, and nothing else.
-/

namespace TableQuery

namespace Json

/-- A byte of a string, escaped where the format asks for it. -/
def escapeByte (b : UInt8) : Bytes :=
  if b == Ascii.doubleQuote then [Ascii.backslash, Ascii.doubleQuote]
  else if b == Ascii.backslash then [Ascii.backslash, Ascii.backslash]
  else if b == 0x08 then "\\b"
  else if b == Ascii.formFeed then "\\f"
  else if b == Ascii.newline then "\\n"
  else if b == Ascii.carriageReturn then "\\r"
  else if b == Ascii.tab then "\\t"
  else if b < 0x20 then
    Bytes.ofString "\\u00" ++ [Ascii.hexDigit (b.toNat / 16), Ascii.hexDigit (b.toNat % 16)]
  else [b]

/-- A string between its quotes. -/
def quoted (s : Bytes) : Bytes :=
  Ascii.doubleQuote :: (s.flatMap escapeByte ++ [Ascii.doubleQuote])

mutual

/-- A value on one line, without blanks. -/
def compact : Json → Bytes
  | .null => "null"
  | .bool true => "true"
  | .bool false => "false"
  | .int n => Bytes.ofInt n
  | .float x => x.toBytes
  | .str s => quoted s
  | .arr items => Ascii.leftBracket :: (compactItems items ++ [Ascii.rightBracket])
  | .obj members => Ascii.leftBrace :: (compactMembers members ++ [Ascii.rightBrace])

/-- The items of an array, commas between them. -/
def compactItems : List Json → Bytes
  | [] => []
  | [x] => x.compact
  | x :: xs => x.compact ++ Ascii.comma :: compactItems xs

/-- The members of an object, commas between them. -/
def compactMembers : List (Bytes × Json) → Bytes
  | [] => []
  | [(k, x)] => quoted k ++ Ascii.colon :: x.compact
  | (k, x) :: xs => quoted k ++ Ascii.colon :: x.compact ++ Ascii.comma :: compactMembers xs

end

/-- A new line, indented by two blanks a level. -/
def newLine (level : Nat) : Bytes := Ascii.newline :: List.replicate (2 * level) Ascii.space

mutual

/-- A value with one item a line, at a level of indentation. -/
def prettyAt (level : Nat) : Json → Bytes
  | .arr [] => "[]"
  | .obj [] => [Ascii.leftBrace, Ascii.rightBrace]
  | .arr items =>
    Ascii.leftBracket :: (prettyItems (level + 1) items ++ newLine level ++ [Ascii.rightBracket])
  | .obj members =>
    Ascii.leftBrace :: (prettyMembers (level + 1) members ++ newLine level ++ [Ascii.rightBrace])
  | j => j.compact

/-- The items of an array, each on its line. -/
def prettyItems (level : Nat) : List Json → Bytes
  | [] => []
  | [x] => newLine level ++ x.prettyAt level
  | x :: xs => newLine level ++ x.prettyAt level ++ Ascii.comma :: prettyItems level xs

/-- The members of an object, each on its line. -/
def prettyMembers (level : Nat) : List (Bytes × Json) → Bytes
  | [] => []
  | [(k, x)] => newLine level ++ quoted k ++ Bytes.ofString ": " ++ x.prettyAt level
  | (k, x) :: xs =>
    newLine level ++ quoted k ++ Bytes.ofString ": " ++ x.prettyAt level
      ++ Ascii.comma :: prettyMembers level xs

end

/-- A value with one item a line. -/
def pretty (j : Json) : Bytes := j.prettyAt 0

end Json

end TableQuery

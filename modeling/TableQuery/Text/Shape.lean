import TableQuery.Text.Bytes

/-!
# Shapes of text

Two fixed shapes that values are checked for: dates with an optional time and zone, and UUIDs. Each part
of a shape takes its bytes from the front and leaves the rest, or fails.
-/

namespace TableQuery

namespace Shape

/-- Exactly `n` bytes of a class. -/
def take? (p : UInt8 → Bool) (n : Nat) (s : Bytes) : Option Bytes :=
  let front := s.take n
  if front.length = n ∧ front.all p then some (s.drop n) else none

/-- Exactly `n` digits. -/
def digits? (n : Nat) (s : Bytes) : Option Bytes := take? Ascii.isDigit n s

/-- One given byte. -/
def byte? (b : UInt8) : Bytes → Option Bytes
  | [] => none
  | a :: rest => if a == b then some rest else none

/-- A part that may be left out: it is there exactly if its first byte is. -/
def optional (starts : UInt8 → Bool) (part : Bytes → Option Bytes) (s : Bytes) : Option Bytes :=
  match s with
  | [] => some []
  | b :: _ => if starts b then part s else some s

/-- Four digits, two and two, with hyphens between them. -/
def date? (s : Bytes) : Option Bytes := do
  let s ← digits? 4 s
  let s ← byte? Ascii.minus s
  let s ← digits? 2 s
  let s ← byte? Ascii.minus s
  digits? 2 s

/-- A point and one to nine digits. -/
def fraction? (s : Bytes) : Option Bytes := do
  let s ← byte? Ascii.dot s
  let digits := s.takeWhile Ascii.isDigit
  if 1 ≤ digits.length ∧ digits.length ≤ 9 then some (s.drop digits.length) else none

/-- A colon, seconds, and perhaps a fraction of them. -/
def seconds? (s : Bytes) : Option Bytes := do
  let s ← byte? Ascii.colon s
  let s ← digits? 2 s
  optional (· == Ascii.dot) fraction? s

/-- A capital Z, or a sign with hours and minutes, with or without a colon between them. -/
def zone? (s : Bytes) : Option Bytes :=
  match s with
  | 0x5a :: rest => some rest
  | _ :: rest => do
    let rest ← digits? 2 rest
    let rest ← optional (· == Ascii.colon) (byte? Ascii.colon) rest
    digits? 2 rest
  | [] => none

/-- Whether a byte starts a zone. -/
def startsZone (b : UInt8) : Bool := b == 0x5a || b == Ascii.plus || b == Ascii.minus

/-- A capital T or a blank, then hours, minutes, perhaps seconds, perhaps a zone. -/
def time? (s : Bytes) : Option Bytes := do
  let s ← take? (fun b => b == 0x54 || b == Ascii.space) 1 s
  let s ← digits? 2 s
  let s ← byte? Ascii.colon s
  let s ← digits? 2 s
  let s ← optional (· == Ascii.colon) seconds? s
  optional startsZone zone? s

/-- Whether a text is a date, perhaps with a time. -/
def isDate (s : Bytes) : Bool :=
  match date? s with
  | none => false
  | some [] => true
  | some rest => time? rest == some []

/-- Groups of hexadecimal digits of the given lengths, with hyphens between them. -/
def hexGroups? : List Nat → Bytes → Option Bytes
  | [], s => some s
  | [n], s => take? Ascii.isHexDigit n s
  | n :: rest, s => do
    let s ← take? Ascii.isHexDigit n s
    let s ← byte? Ascii.minus s
    hexGroups? rest s

/-- Whether a text is a UUID. -/
def isUuid (s : Bytes) : Bool := hexGroups? [8, 4, 4, 4, 12] s == some []

end Shape

end TableQuery

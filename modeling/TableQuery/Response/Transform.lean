import TableQuery.Fault
import TableQuery.Json.Print
import TableQuery.Number.Numeral
import TableQuery.Text.Shape

/-!
# Value transforms

Named changes of a value in a response. A transform gets the value and the whole row. A registry holds
the transforms by name, and a name registered again replaces the earlier one. The family
`slice(start,end)` is always there; its indices count from the end when negative, and the end may be
left out. A name that no one registered changes nothing.
-/

namespace TableQuery

/-- A change of a value, given the row it stands in. -/
abbrev Transform := (value row : Json) → Json

namespace Transform

/-! ## Text -/

/-- A change of texts that leaves all else alone. -/
def onText (change : Bytes → Bytes) (value : Json) : Json :=
  match value with
  | .str s => .str (change s)
  | j => j

/-- The blanks that are trimmed from a text. -/
def isBlank (b : UInt8) : Bool :=
  b == Ascii.space || b == Ascii.tab || b == Ascii.carriageReturn || b == Ascii.newline

/-- A value as text; null as the empty one. -/
def toText : Json → Json
  | .str s => .str s
  | .null => .str []
  | j => .str j.compact

/-- The date at the start of a text, if it starts with one. -/
def dateOfText (s : Bytes) : Bytes := if (Shape.date? s).isSome then s.take 10 else s

/-! ## Numbers and truth -/

/-- The number of a text, an integer if it is one of moderate size. -/
def numberOfText (s : Bytes) : Json :=
  match Numeral.double? (s.dropWhile Ascii.isSpace) with
  | none => .null
  | some x =>
    if x.isIntegral ∧ x.trunc.natAbs < 9000000000000000 then .int x.trunc else .float x

/-- A value as a number, null if it is none. -/
def toNumber : Json → Json
  | .int n => .int n
  | .float x => .float x
  | .bool b => .int (if b then 1 else 0)
  | .str s => numberOfText s
  | _ => .null

/-- A value as a truth value. -/
def toTruth : Json → Json
  | .null => .bool false
  | .bool b => .bool b
  | .int n => .bool (n != 0)
  | .float x => .bool (!x.isZero)
  | .str s => .bool (!s.isEmpty)
  | _ => .bool true

/-- Digits with a comma before every third from the end. -/
def groupThousands (digits : Bytes) : Bytes :=
  (digits.mapIdx fun i b =>
    if 0 < i ∧ (digits.length - i) % 3 = 0 then [Ascii.comma, b] else [b]).flatten

/-- An amount of dollars, to the cent. -/
def currencyText (amount : Binary64) : Bytes :=
  let sign : Bytes := if amount.isBelowZero then "-$" else "$"
  let (whole, cents) := amount.magnitudeInCents
  sign ++ groupThousands whole ++ Ascii.dot :: cents

/-- A number as an amount of money; what is no number stays as it is. -/
def toCurrency (value : Json) : Json :=
  match (toNumber value).toDouble? with
  | some amount => .str (currencyText amount)
  | none => value

/-! ## Slices -/

/-- A position in a sequence: a negative one counts from the end, and both are held within it. -/
def position (size : Nat) (i : Int) : Nat :=
  if i < 0 then (size + i).toNat else min i.toNat size

/-- The items from a start on and before an end. -/
def sliceList {α : Type} (start : Int) (stop : Option Int) (items : List α) : List α :=
  let first := position items.length start
  let last := (stop.map (position items.length)).getD items.length
  (items.take last).drop first

/-- A slice of a text or an array. -/
def slice (start : Int) (stop : Option Int) (value : Json) : Json :=
  match value with
  | .str s => .str (sliceList start stop s)
  | .arr items => .arr (sliceList start stop items)
  | j => j

/-- An index of a slice: perhaps a minus sign, then digits, blanks around it allowed. -/
def sliceIndex? (text : Bytes) : Option Int :=
  match Bytes.trim Ascii.isSpace text with
  | Ascii.plus :: _ => none
  | digits => Numeral.integer? digits

/-- The start and the end that the name of a slice gives. -/
def sliceIndices? (name : Bytes) : Option (Int × Option Int) := do
  let start := Bytes.ofString "slice("
  if !Bytes.startsWith name start || name.getLast? != some Ascii.rightParen then none
  else match Bytes.splitOn Ascii.comma ((name.drop start.length).dropLast) with
    | [first] => return (← sliceIndex? first, none)
    | [first, last] =>
      let first ← sliceIndex? first
      let last ← sliceIndex? last
      return (first, some last)
    | _ => none

/-- Whether an index fits a machine word. -/
def isIndex (i : Int) : Bool := Int64.minValue.toInt ≤ i && i ≤ Int64.maxValue.toInt

end Transform

/-- Transforms by name. -/
structure TransformRegistry where
  transforms : Members Transform

namespace TransformRegistry

/-- The transforms that are always there. -/
def builtin : TransformRegistry where
  transforms := Members.ofList
    [("uppercase", fun value _ => Transform.onText Bytes.toUpper value),
      ("lowercase", fun value _ => Transform.onText Bytes.toLower value),
      ("trim", fun value _ => Transform.onText (Bytes.trim Transform.isBlank) value),
      ("toString", fun value _ => Transform.toText value),
      ("toNumber", fun value _ => Transform.toNumber value),
      ("toBoolean", fun value _ => Transform.toTruth value),
      ("formatDate", fun value _ => Transform.onText Transform.dateOfText value),
      ("formatCurrency", fun value _ => Transform.toCurrency value)]

/-- Puts a transform under a name. -/
def register (r : TransformRegistry) (name : Bytes) (t : Transform) : TransformRegistry :=
  { transforms := Members.insert name t r.transforms }

/-- Whether a name is registered, or begins like a slice. -/
def contains (r : TransformRegistry) (name : Bytes) : Bool :=
  Members.has name r.transforms || Bytes.startsWith name "slice("

/-- Changes a value by the transform of a name. -/
def apply (r : TransformRegistry) (name : Bytes) (value row : Json) : Outcome Json :=
  match Transform.sliceIndices? name with
  | some (start, stop) =>
    if Transform.isIndex start && (stop.map Transform.isIndex).getD true then
      .ok (Transform.slice start stop value)
    else .error .indexOutOfRange
  | none =>
    match Members.find? name r.transforms with
    | some t => .ok (t value row)
    | none => .ok value

end TransformRegistry

end TableQuery

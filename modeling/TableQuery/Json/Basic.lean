import TableQuery.Json.Members
import TableQuery.Number.Binary64

/-!
# JSON values

A JSON value keeps whole numbers and doubles apart: `1` and `1.0` print differently, though they are the
same number (`Json.same`). Objects hold their members in the order of their keys, each key once; use
`Json.record` to build one from members in any order.
-/

namespace TableQuery

/-- A JSON value. -/
inductive Json where
  | null
  | bool (b : Bool)
  | int (n : Int)
  | float (x : Binary64)
  | str (s : Bytes)
  | arr (items : List Json)
  | obj (members : List (Bytes × Json))
deriving Repr, BEq, Inhabited

namespace Json

/-- An object with the given members; of a repeated key the last value counts. -/
def record (members : List (Bytes × Json)) : Json := .obj (Members.ofList members)

/-- An object with the given groups of members. -/
def recordOf (groups : List (List (Bytes × Json))) : Json := record groups.flatten

/-- A member that is present under a condition only. -/
def memberIf (present : Bool) (key : Bytes) (value : Json) : List (Bytes × Json) :=
  if present then [(key, value)] else []

/-- A member that is present when its value is. -/
def member? {α : Type} (key : Bytes) (toJson : α → Json) : Option α → List (Bytes × Json)
  | none => []
  | some a => [(key, toJson a)]

/-- An array of texts. -/
def ofTexts (texts : List Bytes) : Json := .arr (texts.map .str)

/-- A 64-bit integer. -/
def ofInt64 (n : Int64) : Json := .int n.toInt

/-! ## Equality of values -/

/-- Equality of numbers across the two kinds: the integer is first rounded to a double. -/
def intSameFloat (n : Int) (x : Binary64) : Bool :=
  match Binary64.ofInt? n with
  | some y => y.same x
  | none => false

mutual

/-- Equality of values, in which a whole number equals the double of the same value. Whole numbers are
compared as words of 64 bits, so a negative number equals the unsigned one with its bits. -/
def same : Json → Json → Bool
  | .null, .null => true
  | .bool a, .bool b => a == b
  | .int a, .int b => Int64.ofInt a == Int64.ofInt b
  | .float a, .float b => a.same b
  | .int a, .float b => intSameFloat a b
  | .float a, .int b => intSameFloat b a
  | .str a, .str b => a == b
  | .arr xs, .arr ys => sameItems xs ys
  | .obj xs, .obj ys => sameMembers xs ys
  | _, _ => false

/-- Equality of the items of two arrays, place by place. -/
def sameItems : List Json → List Json → Bool
  | [], [] => true
  | x :: xs, y :: ys => x.same y && sameItems xs ys
  | _, _ => false

/-- Equality of the members of two objects: the same keys with the same values. -/
def sameMembers : List (Bytes × Json) → List (Bytes × Json) → Bool
  | [], [] => true
  | (k, x) :: xs, (l, y) :: ys => k == l && x.same y && sameMembers xs ys
  | _, _ => false

end

end Json

end TableQuery

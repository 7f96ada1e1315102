import TableQuery.Json.Basic

/-!
# Reading JSON values

The accessors by which a description or a request is read out of a JSON value. Each one that can fail
fails with a `Mismatch`, which says what was wanted. No text, boolean, array or object is converted to
another kind; an integer read at a fixed width wraps, and a double read as an integer is cut toward
zero.

A default (`textOr`, `boolOr`, …) stands in for a missing key only. A key that is present with a value
of another kind, null included, is a mismatch, and so is asking a value that is no object.
-/

namespace TableQuery

namespace Json

/-- Why a value could not be read. -/
inductive Mismatch where
  /-- The object lacks the key. -/
  | missing (key : Bytes)
  /-- The value is of another kind than the one wanted. -/
  | unexpected (wanted : Bytes)
deriving Repr, DecidableEq

/-- The text of a mismatch inside a message. -/
def Mismatch.text : Mismatch → Bytes
  | .missing key => Bytes.ofString "[json.exception.out_of_range] key '" ++ key ++ "' not found"
  | .unexpected wanted => Bytes.ofString "[json.exception.type_error] type must be " ++ wanted

/-- A value that was read, or the mismatch. -/
abbrev Reading (α : Type) := Except Mismatch α

/-! ## Members -/

/-- The member of a key; none of a value that is no object. -/
def get? (j : Json) (key : Bytes) : Option Json :=
  match j with
  | .obj members => Members.find? key members
  | _ => none

/-- Whether the value is an object with the key. -/
def has (j : Json) (key : Bytes) : Bool := (j.get? key).isSome

/-- The member of a key that must be there. -/
def member (j : Json) (key : Bytes) : Reading Json :=
  match j with
  | .obj members =>
    match Members.find? key members with
    | some value => .ok value
    | none => .error (.missing key)
  | _ => .error (.unexpected "object")

/-- The member of a key, or a default if the object lacks the key. -/
def getOr (j : Json) (key : Bytes) (default : Json) : Reading Json :=
  match j with
  | .obj members => .ok ((Members.find? key members).getD default)
  | _ => .error (.unexpected "object")

/-! ## Kinds -/

/-- Whether the value is null. -/
def isNull : Json → Bool
  | .null => true
  | _ => false

/-- Whether the value is an array. -/
def isArr : Json → Bool
  | .arr _ => true
  | _ => false

/-- Whether the value is an object. -/
def isObj : Json → Bool
  | .obj _ => true
  | _ => false

/-- The number of items or members; null has none, and any other value is one. -/
def size : Json → Nat
  | .null => 0
  | .arr items => items.length
  | .obj members => members.length
  | _ => 1

/-- The text of a string value. -/
def text? : Json → Option Bytes
  | .str s => some s
  | _ => none

/-! ## Scalars -/

/-- A text. -/
def asText : Json → Reading Bytes
  | .str s => .ok s
  | _ => .error (.unexpected "string")

/-- A truth value. -/
def asBool : Json → Reading Bool
  | .bool b => .ok b
  | _ => .error (.unexpected "boolean")

/-- The integer part of a double, or the least number of the range when it is out of range. -/
def truncWithin (least greatest : Int) (x : Binary64) : Int :=
  if least ≤ x.trunc ∧ x.trunc ≤ greatest then x.trunc else least

/-- A 64-bit integer. -/
def asInt64 : Json → Reading Int64
  | .int n => .ok (Int64.ofInt n)
  | .float x => .ok (Int64.ofInt (truncWithin Int64.minValue.toInt Int64.maxValue.toInt x))
  | _ => .error (.unexpected "number")

/-- A 32-bit integer; a truth value counts as 0 or 1. -/
def asInt32 : Json → Reading Int32
  | .int n => .ok (Int32.ofInt n)
  | .float x => .ok (Int32.ofInt (truncWithin Int32.minValue.toInt Int32.maxValue.toInt x))
  | .bool b => .ok (if b then 1 else 0)
  | _ => .error (.unexpected "number")

/-- The integer part of a double as an unsigned 64-bit number, wrapped like an integer's; beyond what a
64-bit number can hold it is zero, and below the least signed one it is the sign bit alone. -/
def truncUnsigned (x : Binary64) : UInt64 :=
  let n := x.trunc
  if n < Int64.minValue.toInt then 0x8000000000000000
  else if n < UInt64.size then UInt64.ofInt n
  else 0

/-- An unsigned 64-bit integer. -/
def asUInt64 : Json → Reading UInt64
  | .int n => .ok (UInt64.ofInt n)
  | .float x => .ok (truncUnsigned x)
  | _ => .error (.unexpected "number")

/-- The double of a number. -/
def toDouble? : Json → Option Binary64
  | .int n => Binary64.ofInt? n
  | .float x => some x
  | _ => none

/-! ## Sequences -/

/-- The values met when iterating: the items, the members' values, nothing of null, and any other
value itself. -/
def elems : Json → List Json
  | .null => []
  | .arr items => items
  | .obj members => members.map Prod.snd
  | j => [j]

/-- The values met when iterating with names: positions name the items of an array, and a single value
has the empty name. -/
def items : Json → List (Bytes × Json)
  | .null => []
  | .arr items => items.mapIdx fun i j => (Bytes.ofNat i, j)
  | .obj members => members
  | j => [([], j)]

/-- The items of an array. -/
def asArray : Json → Reading (List Json)
  | .arr items => .ok items
  | _ => .error (.unexpected "array")

/-- An array of texts. -/
def asTexts (j : Json) : Reading (List Bytes) := do
  (← j.asArray).mapM asText

/-- A list of texts: null is the empty list and a text the list of itself. -/
def asTextList : Json → Reading (List Bytes)
  | .null => .ok []
  | .str s => .ok [s]
  | j => j.asTexts

/-! ## Members of a kind, with defaults -/

/-- Reads the member of a key, or takes the default if the object lacks the key. -/
def readOr {α : Type} (read : Json → Reading α) (j : Json) (key : Bytes) (default : α) : Reading α :=
  match j with
  | .obj members =>
    match Members.find? key members with
    | some value => read value
    | none => .ok default
  | _ => .error (.unexpected "object")

/-- A text, or a default. -/
def textOr (j : Json) (key : Bytes) (default : Bytes) : Reading Bytes := readOr asText j key default

/-- A truth value, or a default. -/
def boolOr (j : Json) (key : Bytes) (default : Bool) : Reading Bool := readOr asBool j key default

/-- A 64-bit integer, or a default. -/
def int64Or (j : Json) (key : Bytes) (default : Int64) : Reading Int64 := readOr asInt64 j key default

/-- A 32-bit integer, or a default. -/
def int32Or (j : Json) (key : Bytes) (default : Int32) : Reading Int32 := readOr asInt32 j key default

/-- An unsigned 64-bit integer, or a default. -/
def uint64Or (j : Json) (key : Bytes) (default : UInt64) : Reading UInt64 :=
  readOr asUInt64 j key default

/-- A text that must be there. -/
def textAt (j : Json) (key : Bytes) : Reading Bytes := do (← j.member key).asText

/-- The elements of a member, none if the object lacks the key. -/
def elemsOr (j : Json) (key : Bytes) : Reading (List Json) := do
  return (← j.getOr key (.arr [])).elems

/-- A list of texts under a key, empty if the object lacks the key. -/
def textListOr (j : Json) (key : Bytes) : Reading (List Bytes) := do
  (← j.getOr key .null).asTextList

/-! ## Sizes

What iteration meets is smaller than the value iterated over, unless it is a single value met as
itself; so a reader that goes down only into members ends. -/

theorem sizeOf_lt_of_find? {key : Bytes} {members : List (Bytes × Json)} {value : Json}
    (h : Members.find? key members = some value) : sizeOf value < sizeOf members := by
  induction members with
  | nil => simp [Members.find?] at h
  | cons head rest ih =>
    obtain ⟨k, v⟩ := head
    by_cases hk : k = key
    · simp only [Members.find?, hk, if_true, Option.some.injEq] at h
      subst h
      simp
      omega
    · simp only [Members.find?, hk, if_false] at h
      have := ih h
      simp
      omega

theorem sizeOf_lt_of_get? {j : Json} {key : Bytes} {value : Json} (h : j.get? key = some value) :
    sizeOf value < sizeOf j := by
  cases j with
  | obj members =>
    have := sizeOf_lt_of_find? (show Members.find? key members = some value from h)
    simp
    omega
  | _ => simp [get?] at h

theorem sizeOf_le_of_mem_elems {j child : Json} (h : child ∈ j.elems) : sizeOf child ≤ sizeOf j := by
  cases j with
  | arr items =>
    have := List.sizeOf_lt_of_mem (show child ∈ items from h)
    simp
    omega
  | obj members =>
    obtain ⟨⟨k, v⟩, hmem, rfl⟩ := List.mem_map.1 (show child ∈ members.map Prod.snd from h)
    have := List.sizeOf_lt_of_mem hmem
    simp at this ⊢
    omega
  | null => simp [elems] at h
  | _ => simp only [elems, List.mem_singleton] at h; subst h; exact Nat.le_refl _

end Json

end TableQuery

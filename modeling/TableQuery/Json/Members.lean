import TableQuery.Text.Bytes

/-!
# Sorted association lists

The members of an object, and every other map of this library, are a list of key and value in the order
of the keys' bytes, each key once. `insert` keeps that order and replaces the value of a present key, so
of a repeated key the last value counts.

`find?_insert` is the law of the structure: after an insertion a key finds the inserted value if it is
the inserted key, and what it found before otherwise. It needs no order of the list.
-/

namespace TableQuery

/-- Keys with their values, in the order of the keys. -/
abbrev Members (α : Type) := List (Bytes × α)

namespace Members

variable {α : Type}

/-- The value of a key. -/
def find? (key : Bytes) : Members α → Option α
  | [] => none
  | (k, v) :: rest => if k = key then some v else find? key rest

/-- Whether a key is present. -/
def has (key : Bytes) (members : Members α) : Bool := (find? key members).isSome

/-- Puts a value under a key. -/
def insert (key : Bytes) (value : α) : Members α → Members α
  | [] => [(key, value)]
  | (k, v) :: rest =>
    if k = key then (key, value) :: rest
    else if key < k then (key, value) :: (k, v) :: rest
    else (k, v) :: insert key value rest

/-- Drops a key and its value. -/
def erase (key : Bytes) : Members α → Members α
  | [] => []
  | (k, v) :: rest => if k = key then rest else (k, v) :: erase key rest

/-- The map of a list of pairs; a later pair replaces an earlier one of the same key. -/
def ofList (pairs : List (Bytes × α)) : Members α :=
  pairs.foldl (fun members (key, value) => insert key value members) []

/-- The keys, in order. -/
def keys (members : Members α) : List Bytes := members.map Prod.fst

/-- No key comes twice, and each key is below the ones after it. -/
def Sorted : Members α → Prop
  | [] => True
  | (k, _) :: rest => (∀ l ∈ keys rest, k < l) ∧ Sorted rest

theorem find?_insert (key other : Bytes) (value : α) (members : Members α) :
    find? other (insert key value members)
      = if key = other then some value else find? other members := by
  induction members with
  | nil => simp [insert, find?]
  | cons head rest ih =>
    obtain ⟨k, v⟩ := head
    by_cases hk : k = key
    · subst hk
      by_cases ho : k = other <;> simp [insert, find?, ho]
    · by_cases hlt : key < k
      · simp [insert, find?, hk, hlt]
      · by_cases ho : k = other
        · subst ho
          simp [insert, find?, hk, hlt, Ne.symm hk]
        · simp [insert, find?, hk, hlt, ho, ih]

end Members

end TableQuery

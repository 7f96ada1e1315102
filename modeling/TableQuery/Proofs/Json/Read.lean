import TableQuery.Proofs.Checked
import TableQuery.Proofs.Json.Members
import TableQuery.Vocabulary

/-!
# Members read back

What is written of a record is an object with a member for each part, of which some are left out where they have their
usual value. Reading the object asks for one member after another, and gives for each of them what was written, or the
usual value in its place.

## What is proved

`Json.Tells`: what reading needs to know of an object. `Json.tells_present`, `Json.tells_record` and
`Json.tells_recordOf` give it for what is written, and the laws after them are one for each way of reading a member.
-/

namespace TableQuery

/-! ## Steps -/

namespace Outcome

variable {α β : Type} {f : α → Outcome β} {a : α} {b : β}

theorem reading_of_ok {x : Json.Reading α} (h : x = .ok a) : (liftM x : Outcome α) = .ok a := by
  rw [h]
  rfl

theorem bind_reading {x : Json.Reading α} (first : x = .ok a) (next : f a = .ok b) :
    ((liftM x : Outcome α) >>= f) = .ok b := by
  rw [first]
  exact next

theorem bind_checked {x : Checked α} (first : x = .ok a) (next : f a = .ok b) :
    ((liftM x : Outcome α) >>= f) = .ok b := by
  rw [first]
  exact next

end Outcome

namespace Json

/-- An object has these members, some of which may be absent, and no others. -/
structure Tells (j : Json) (fields : List (Bytes × Option Json)) : Prop where
  object : ∃ members, j = .obj members
  all : ∀ key, j.get? key = (Members.find? key fields).join

variable {fields : List (Bytes × Option Json)}

theorem tells_present (distinct : (fields.map Prod.fst).Nodup) : (record (present fields)).Tells fields where
  object := ⟨_, rfl⟩
  all := get?_present_eq distinct

theorem tells_record {members : List (Bytes × Json)} (distinct : (members.map Prod.fst).Nodup) :
    (record members).Tells (members.map fun (key, value) => (key, some value)) := by
  have all : present (members.map fun (key, value) => (key, some value)) = members := by
    unfold present
    rw [List.flatMap_map]
    exact List.flatMap_singleton' members
  rw [← congrArg record all]
  exact tells_present (by rwa [List.map_map])

/-- An object that is written in groups has the members of all of them. -/
theorem tells_recordOf {groups : List (List (Bytes × Json))} (flat : groups.flatten = present fields)
    (distinct : (fields.map Prod.fst).Nodup) : (recordOf groups).Tells fields := by
  rw [recordOf, flat]
  exact tells_present distinct

/-- What is written of a list: nothing if it is empty. -/
def listOf {α : Type} (write : α → Json) (items : List α) : Option Json :=
  if !items.isEmpty then some (.arr (items.map write)) else none

theorem asTexts_ofTexts (texts : List Bytes) : (Json.ofTexts texts).asTexts = .ok texts :=
  Checked.mapM_of_forall fun _ _ => rfl

namespace Tells

variable {j : Json} (told : j.Tells fields) (key : Bytes)
include told

/-! ## Any member -/

theorem get? (value : Option Json) (given : Members.find? key fields = some value) : j.get? key = value := by
  rw [told.all key, given]
  rfl

theorem member (value : Json) (given : Members.find? key fields = some (some value)) : j.member key = .ok value := by
  have found := told.get? key _ given
  obtain ⟨members, rfl⟩ := told.object
  unfold Json.get? at found
  unfold Json.member
  dsimp only at found ⊢
  rw [found]

theorem getOr (value : Option Json) (given : Members.find? key fields = some value) (default : Json) :
    j.getOr key default = .ok (value.getD default) := by
  have found := told.get? key _ given
  obtain ⟨members, rfl⟩ := told.object
  exact congrArg (fun value => Except.ok (Option.getD value default)) found

theorem readOr (value : Option Json) (given : Members.find? key fields = some value) {α : Type}
    (read : Json → Reading α) (default : α) : j.readOr read key default = value.elim (.ok default) read := by
  have found := told.get? key _ given
  obtain ⟨members, rfl⟩ := told.object
  unfold Json.get? at found
  unfold Json.readOr
  dsimp only at found ⊢
  rw [found]
  cases value <;> rfl

/-! ## Members that are always there -/

theorem textAt (s : Bytes) (given : Members.find? key fields = some (some (.str s))) : j.textAt key = .ok s :=
  Checked.bind_of_ok (told.member key _ given) rfl

theorem textOr (s : Bytes) (given : Members.find? key fields = some (some (.str s))) (default : Bytes) :
    j.textOr key default = .ok s :=
  told.readOr key _ given asText default

theorem boolOr (b : Bool) (given : Members.find? key fields = some (some (.bool b))) (default : Bool) :
    j.boolOr key default = .ok b :=
  told.readOr key _ given asBool default

theorem int64Or (n : Int64) (given : Members.find? key fields = some (some (.ofInt64 n))) (default : Int64) :
    j.int64Or key default = .ok n :=
  (told.readOr key _ given asInt64 default).trans (congrArg Except.ok (Int64.ofInt_toInt n))

theorem int32Or (n : Int32) (given : Members.find? key fields = some (some (.int n.toInt))) (default : Int32) :
    j.int32Or key default = .ok n :=
  (told.readOr key _ given asInt32 default).trans (congrArg Except.ok (Int32.ofInt_toInt n))

theorem textListOr (texts : List Bytes) (given : Members.find? key fields = some (some (.ofTexts texts))) :
    j.textListOr key = .ok texts :=
  Checked.bind_of_ok (told.getOr key _ given .null) (asTexts_ofTexts texts)

theorem elemsOr (items : List Json) (given : Members.find? key fields = some (some (.arr items))) :
    j.elemsOr key = .ok items :=
  Checked.bind_of_ok (told.getOr key _ given (.arr [])) rfl

/-! ## Members that are left out where they have their usual value -/

theorem textOr_nil (s : Bytes)
    (given : Members.find? key fields = some (if !s.isEmpty then some (.str s) else none)) : j.textOr key [] = .ok s := by
  rw [Json.textOr, told.readOr key _ given]
  cases s <;> rfl

theorem boolOr_false (b : Bool)
    (given : Members.find? key fields = some (if b then some (.bool true) else none)) : j.boolOr key false = .ok b := by
  rw [Json.boolOr, told.readOr key _ given]
  cases b <;> rfl

theorem boolOr_true (b : Bool)
    (given : Members.find? key fields = some (if !b then some (.bool false) else none)) : j.boolOr key true = .ok b := by
  rw [Json.boolOr, told.readOr key _ given]
  cases b <;> rfl

theorem textListOr_nil (texts : List Bytes)
    (given : Members.find? key fields = some (if !texts.isEmpty then some (.ofTexts texts) else none)) :
    j.textListOr key = .ok texts := by
  refine Checked.bind_of_ok (told.getOr key _ given .null) ?_
  cases texts with
  | nil => rfl
  | cons text texts => exact asTexts_ofTexts (text :: texts)

theorem elemsOr_nil {α : Type} (write : α → Json) (items : List α)
    (given : Members.find? key fields = some (listOf write items)) : j.elemsOr key = .ok (items.map write) := by
  refine Checked.bind_of_ok (told.getOr key _ given (.arr [])) ?_
  cases items <;> rfl

end Tells

end Json

end TableQuery

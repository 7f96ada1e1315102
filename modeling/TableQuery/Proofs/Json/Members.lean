import Mathlib.Data.List.Nodup
import TableQuery.Json.Read

/-!
# Sorted association lists, changed and read

Insertion and erasure keep the order of the keys, and in an ordered list each key stands once. So the list is
the map that `find?` reads from it: an erased key finds nothing, and the others find what they found before.

## What is proved

`Sorted.insert`, `Sorted.erase`: both changes keep the order.
`find?_erase`: after an erasure the key is absent and every other key finds what it found before.
`ofList_of_sorted`: an ordered list is the map of its own pairs. By `ofList_perm` the map of pairs with different keys
has these pairs, whatever their order.
`Json.get?_record`: an object made of members under different keys has each of them.
`Json.present_inj`: an object tells the members that may be absent from it, each of them by its key.
-/

namespace TableQuery

namespace Members

variable {α : Type} {key other : Bytes} {value : α} {members : Members α}

/-! ## Keys -/

theorem mem_of_find? (found : find? key members = some value) : (key, value) ∈ members := by
  induction members with
  | nil => cases found
  | cons head rest ih =>
    obtain ⟨k, v⟩ := head
    rw [find?] at found
    split_ifs at found with same
    · cases found
      subst same
      exact List.mem_cons_self
    · exact List.mem_cons_of_mem _ (ih found)

theorem mem_keys_iff : key ∈ keys members ↔ has key members = true := by
  induction members with
  | nil => simp [keys, has, find?]
  | cons head rest ih =>
    obtain ⟨k, v⟩ := head
    rw [has] at ih ⊢
    rw [keys, List.map_cons, List.mem_cons, find?]
    split_ifs with same
    · simp [same]
    · rw [← ih, keys]
      simp [Ne.symm same]

theorem find?_eq_none_iff : find? key members = none ↔ key ∉ keys members := by
  rw [mem_keys_iff, has, Option.not_isSome_iff_eq_none]

theorem mem_keys_insert : other ∈ keys (insert key value members) ↔ other = key ∨ other ∈ keys members := by
  rw [mem_keys_iff, mem_keys_iff, has, has, find?_insert]
  split_ifs with same
  · simp [same]
  · simp [Ne.symm same]

theorem mem_insert {pair : Bytes × α} (mem : pair ∈ insert key value members) :
    pair = (key, value) ∨ pair ∈ members := by
  induction members with
  | nil => exact .inl (List.mem_singleton.mp mem)
  | cons head rest ih =>
    obtain ⟨k, v⟩ := head
    rw [insert] at mem
    split_ifs at mem
    · exact (List.mem_cons.mp mem).imp_right (List.mem_cons_of_mem _)
    · exact List.mem_cons.mp mem
    · rcases List.mem_cons.mp mem with rfl | mem
      · exact .inr List.mem_cons_self
      · exact (ih mem).imp_right (List.mem_cons_of_mem _)

/-! ## Order -/

theorem sorted_iff : Sorted members ↔ (keys members).Pairwise (· < ·) := by
  induction members with
  | nil => exact iff_of_true trivial .nil
  | cons head rest ih => exact (and_congr_right' ih).trans List.pairwise_cons.symm

theorem Sorted.nodup (sorted : Sorted members) : (keys members).Nodup := by
  refine (sorted_iff.mp sorted).imp ?_
  rintro k _ below rfl
  exact List.lt_irrefl k below

theorem find?_of_mem (sorted : Sorted members) (mem : (key, value) ∈ members) : find? key members = some value := by
  induction members with
  | nil => cases mem
  | cons head rest ih =>
    obtain ⟨k, v⟩ := head
    obtain ⟨below, sorted⟩ := sorted
    rw [find?]
    rcases List.mem_cons.mp mem with same | mem
    · cases same
      exact if_pos rfl
    · have smaller := below key (List.mem_map_of_mem mem)
      rw [if_neg fun same => List.lt_irrefl _ (same ▸ smaller), ih sorted mem]

theorem Sorted.insert (sorted : Sorted members) : Sorted (insert key value members) := by
  induction members with
  | nil => exact ⟨nofun, trivial⟩
  | cons head rest ih =>
    obtain ⟨k, v⟩ := head
    obtain ⟨below, sorted⟩ := sorted
    rw [Members.insert]
    split_ifs with same smaller
    · exact ⟨same ▸ below, sorted⟩
    · refine ⟨fun l mem => ?_, below, sorted⟩
      rcases List.mem_cons.mp mem with rfl | mem
      · exact smaller
      · exact List.lt_trans smaller (below l mem)
    · refine ⟨fun l mem => ?_, ih sorted⟩
      rcases mem_keys_insert.mp mem with rfl | mem
      · by_contra larger
        exact same (List.le_antisymm smaller larger)
      · exact below l mem

theorem insert_perm (absent : key ∉ keys members) : (insert key value members).Perm ((key, value) :: members) := by
  induction members with
  | nil => exact .refl _
  | cons head rest ih =>
    obtain ⟨k, v⟩ := head
    rw [keys, List.map_cons, List.mem_cons, not_or] at absent
    rw [insert, if_neg (Ne.symm absent.1)]
    split_ifs
    · exact .refl _
    · exact ((ih absent.2).cons _).trans (.swap ..)

theorem erase_sublist (key : Bytes) (members : Members α) : (erase key members).Sublist members := by
  induction members with
  | nil => exact .slnil
  | cons head rest ih =>
    obtain ⟨k, v⟩ := head
    rw [erase]
    split_ifs
    · exact List.sublist_cons_self _ _
    · exact ih.cons_cons _

theorem find?_erase (sorted : Sorted members) :
    find? other (erase key members) = if key = other then none else find? other members := by
  induction members with
  | nil => simp [erase, find?]
  | cons head rest ih =>
    obtain ⟨k, v⟩ := head
    obtain ⟨below, sorted⟩ := sorted
    rw [erase]
    split_ifs with same gone gone
    · subst gone same
      exact find?_eq_none_iff.mpr fun mem => List.lt_irrefl _ (below _ mem)
    · subst same
      rw [find?, if_neg gone]
    · rw [find?, if_neg (gone ▸ same), ih sorted, if_pos gone]
    · rw [find?, find?, ih sorted, if_neg gone]

theorem mem_keys_erase (sorted : Sorted members) :
    other ∈ keys (erase key members) ↔ other ≠ key ∧ other ∈ keys members := by
  rw [mem_keys_iff, mem_keys_iff, has, has, find?_erase sorted]
  split_ifs with same
  · simp [same]
  · simp [Ne.symm same]

theorem Sorted.erase (sorted : Sorted members) : Sorted (erase key members) := by
  induction members with
  | nil => exact trivial
  | cons head rest ih =>
    obtain ⟨k, v⟩ := head
    obtain ⟨below, sorted⟩ := sorted
    rw [Members.erase]
    split_ifs
    · exact sorted
    · exact ⟨fun l mem => below l ((mem_keys_erase sorted).mp mem).2, ih sorted⟩

/-! ## Maps of pairs -/

variable {pairs : List (Bytes × α)}

theorem find?_foldl_insert (absent : key ∉ pairs.map Prod.fst) (members : Members α) :
    find? key (pairs.foldl (fun members (k, v) => insert k v members) members) = find? key members := by
  induction pairs generalizing members with
  | nil => rfl
  | cons pair rest ih =>
    rw [List.map_cons, List.mem_cons, not_or] at absent
    rw [List.foldl_cons, ih absent.2, find?_insert, if_neg (Ne.symm absent.1)]

theorem sorted_ofList (pairs : List (Bytes × α)) : Sorted (ofList pairs) := by
  have general (members : Members α) (sorted : Sorted members) :
      Sorted (pairs.foldl (fun members (k, v) => insert k v members) members) := by
    induction pairs generalizing members with
    | nil => exact sorted
    | cons pair rest ih => exact ih _ sorted.insert
  exact general [] trivial

/-- A key with one value finds it, however often the two stand in the list. -/
theorem find?_ofList_of_only (mem : (key, value) ∈ pairs) (only : ∀ v, (key, v) ∈ pairs → v = value) :
    find? key (ofList pairs) = some value := by
  have general (members : Members α) :
      find? key (pairs.foldl (fun members (k, v) => insert k v members) members) = some value := by
    induction pairs generalizing members with
    | nil => cases mem
    | cons pair rest ih =>
      rw [List.foldl_cons]
      by_cases later : (key, value) ∈ rest
      · exact ih later (fun v mem => only v (List.mem_cons_of_mem _ mem)) _
      · have absent : key ∉ rest.map Prod.fst := by
          intro found
          obtain ⟨⟨_, v⟩, again, rfl⟩ := List.mem_map.mp found
          exact later (only v (List.mem_cons_of_mem _ again) ▸ again)
        cases (List.mem_cons.mp mem).resolve_right later
        rw [find?_foldl_insert absent, find?_insert, if_pos rfl]
  exact general []

theorem find?_ofList (distinct : (pairs.map Prod.fst).Nodup) (mem : (key, value) ∈ pairs) :
    find? key (ofList pairs) = some value := by
  refine find?_ofList_of_only mem fun v other => ?_
  exact congrArg Prod.snd (List.inj_on_of_nodup_map distinct other mem rfl)

/-- The map of pairs with different keys has these pairs. -/
theorem ofList_perm (distinct : (pairs.map Prod.fst).Nodup) : (ofList pairs).Perm pairs := by
  have general (pairs members : Members α) (distinct : ((pairs ++ members).map Prod.fst).Nodup) :
      (pairs.foldl (fun members (k, v) => insert k v members) members).Perm (pairs ++ members) := by
    induction pairs generalizing members with
    | nil => exact .refl _
    | cons pair rest ih =>
      obtain ⟨key, value⟩ := pair
      have unique := distinct
      rw [List.cons_append, List.map_cons, List.nodup_cons] at unique
      have absent : key ∉ keys members := fun mem =>
        unique.1 (List.map_subset Prod.fst (List.subset_append_right rest members) mem)
      have moved : (rest ++ insert key value members).Perm ((key, value) :: (rest ++ members)) :=
        ((insert_perm absent).append_left rest).trans List.perm_middle
      exact (ih _ ((moved.map Prod.fst).nodup_iff.mpr distinct)).trans moved
  exact (general pairs [] (by rwa [List.append_nil])).trans (.of_eq (List.append_nil _))

/-- A change of all values commutes with insertion. -/
theorem insert_map {β : Type} (f : α → β) :
    insert key (f value) (members.map fun (k, v) => (k, f v)) = (insert key value members).map fun (k, v) => (k, f v) := by
  induction members with
  | nil => rfl
  | cons head rest ih =>
    obtain ⟨k, v⟩ := head
    rw [List.map_cons, insert, insert, ih]
    split_ifs <;> rfl

theorem ofList_map {β : Type} (f : α → β) :
    ofList (pairs.map fun (k, v) => (k, f v)) = (ofList pairs).map fun (k, v) => (k, f v) := by
  have general (members : Members α) :
      (pairs.map fun (k, v) => (k, f v)).foldl (fun members (k, v) => insert k v members)
          (members.map fun (k, v) => (k, f v))
        = (pairs.foldl (fun members (k, v) => insert k v members) members).map fun (k, v) => (k, f v) := by
    induction pairs generalizing members with
    | nil => rfl
    | cons pair rest ih =>
      rw [List.map_cons, List.foldl_cons, List.foldl_cons, ← ih]
      exact congrArg (List.foldl _ · _) (insert_map f)
  exact general []

theorem insert_eq_append (above : ∀ k ∈ keys members, k < key) :
    insert key value members = members ++ [(key, value)] := by
  induction members with
  | nil => rfl
  | cons head rest ih =>
    obtain ⟨k, v⟩ := head
    rw [keys, List.map_cons, List.forall_mem_cons] at above
    have below : k < key := above.1
    rw [insert, if_neg fun same => List.lt_irrefl _ (same ▸ below),
      if_neg fun later => List.lt_irrefl _ (List.lt_trans below later), ih above.2]
    rfl

theorem Sorted.of_append {front back : Members α} (sorted : Sorted (front ++ back)) :
    ∀ k ∈ keys front, ∀ l ∈ keys back, k < l := by
  rw [sorted_iff, keys, List.map_append, List.pairwise_append] at sorted
  exact sorted.2.2

/-- An ordered list is the map of its own pairs. -/
theorem ofList_of_sorted (sorted : Sorted members) : ofList members = members := by
  have general (front back : Members α) (sorted : Sorted (front ++ back)) :
      back.foldl (fun members (k, v) => insert k v members) front = front ++ back := by
    induction back generalizing front with
    | nil => exact (List.append_nil _).symm
    | cons pair back ih =>
      obtain ⟨key, value⟩ := pair
      have above : ∀ k ∈ keys front, k < key := fun k mem => sorted.of_append k mem _ List.mem_cons_self
      have shifted : front ++ (key, value) :: back = front ++ [(key, value)] ++ back := List.append_cons front _ back
      rw [List.foldl_cons]
      dsimp only
      rw [insert_eq_append above, ih _ (shifted ▸ sorted), shifted]
  exact general [] members sorted

theorem Sorted.of_keys {β : Type} {others : Members β} (sorted : Sorted members) (same : keys others = keys members) :
    Sorted others := by
  rw [sorted_iff, same]
  exact sorted_iff.mp sorted

/-- Lists of pairs with the same keys are equal where their values are. -/
theorem eq_of_keys {xs ys : List (Bytes × α)} (keys : xs.map Prod.fst = ys.map Prod.fst)
    (values : ∀ key v w, (key, v) ∈ xs → (key, w) ∈ ys → v = w) : xs = ys := by
  induction xs generalizing ys with
  | nil => exact (List.map_eq_nil_iff.mp keys.symm).symm
  | cons x xs ih =>
    cases ys with
    | nil => cases keys
    | cons y ys =>
      obtain ⟨key, v⟩ := x
      obtain ⟨key', w⟩ := y
      obtain ⟨same, more⟩ := List.cons.inj keys
      cases same
      cases values key v w List.mem_cons_self List.mem_cons_self
      rw [ih more fun key v w mem mem' =>
        values key v w (List.mem_cons_of_mem _ mem) (List.mem_cons_of_mem _ mem')]

end Members

namespace Json

theorem get?_record {members : List (Bytes × Json)} {key : Bytes} {value : Json}
    (distinct : (members.map Prod.fst).Nodup) (mem : (key, value) ∈ members) :
    (Json.record members).get? key = some value :=
  Members.find?_ofList distinct mem

theorem get?_record_of_only {members : List (Bytes × Json)} {key : Bytes} {value : Json} (mem : (key, value) ∈ members)
    (only : ∀ v, (key, v) ∈ members → v = value) : (Json.record members).get? key = some value :=
  Members.find?_ofList_of_only mem only

theorem get?_record_of_not_mem {members : List (Bytes × Json)} {key : Bytes} (absent : key ∉ members.map Prod.fst) :
    (Json.record members).get? key = none :=
  Members.find?_foldl_insert absent []

/-! ## Members that may be absent -/

/-- The members that have a value. -/
def present (fields : List (Bytes × Option Json)) : List (Bytes × Json) :=
  fields.flatMap fun (key, value) => (value.map fun value => (key, value)).toList

theorem member?_eq {α : Type} (key : Bytes) (toJson : α → Json) (value : Option α) :
    member? key toJson value = ((value.map toJson).map fun value => (key, value)).toList := by
  cases value <;> rfl

theorem memberIf_eq (given : Bool) (key : Bytes) (value : Json) :
    memberIf given key value = ((if given then some value else none).map fun value => (key, value)).toList := by
  cases given <;> rfl

theorem keys_present {fields : List (Bytes × Option Json)} :
    ((present fields).map Prod.fst).Sublist (fields.map Prod.fst) := by
  induction fields with
  | nil => exact .slnil
  | cons field fields ih =>
    obtain ⟨key, value⟩ := field
    cases value with
    | none => exact .cons _ ih
    | some value => exact .cons_cons _ ih

theorem get?_present {fields : List (Bytes × Option Json)} {key : Bytes} {value : Option Json}
    (distinct : (fields.map Prod.fst).Nodup) (mem : (key, value) ∈ fields) :
    (record (present fields)).get? key = value := by
  have nodup : ((present fields).map Prod.fst).Nodup := keys_present.nodup distinct
  cases value with
  | some value => exact get?_record nodup (List.mem_flatMap.mpr ⟨_, mem, List.mem_singleton.mpr rfl⟩)
  | none =>
    refine get?_record_of_not_mem fun found => ?_
    obtain ⟨pair, mem', same⟩ := List.mem_map.mp found
    obtain ⟨⟨key', value⟩, field, held⟩ := List.mem_flatMap.mp mem'
    cases value with
    | none => cases held
    | some value =>
      cases List.mem_singleton.mp held
      cases same
      have equal := List.inj_on_of_nodup_map distinct mem field rfl
      cases equal

/-- An object that is written has the members that are given for it, and no others. -/
theorem get?_present_eq {fields : List (Bytes × Option Json)} (distinct : (fields.map Prod.fst).Nodup) (key : Bytes) :
    (record (present fields)).get? key = (Members.find? key fields).join := by
  cases found : Members.find? key fields with
  | some value => exact get?_present distinct (Members.mem_of_find? found)
  | none =>
    exact get?_record_of_not_mem fun mem => Members.find?_eq_none_iff.mp found (keys_present.subset mem)

/-- An object tells the members that may be absent from it. -/
theorem present_inj {fields fields' : List (Bytes × Option Json)}
    (same : record (present fields) = record (present fields')) (keys : fields.map Prod.fst = fields'.map Prod.fst)
    (distinct : (fields.map Prod.fst).Nodup) : fields = fields' := by
  refine Members.eq_of_keys keys fun key v w mem mem' => ?_
  rw [← get?_present distinct mem, same, get?_present (keys ▸ distinct) mem']

/-- An object tells the members it is made of. -/
theorem record_inj {members members' : List (Bytes × Json)} (same : record members = record members')
    (keys : members.map Prod.fst = members'.map Prod.fst) (distinct : (members.map Prod.fst).Nodup) :
    members = members' := by
  refine Members.eq_of_keys keys fun key v w mem mem' => Option.some.inj ?_
  rw [← get?_record distinct mem, same, get?_record (keys ▸ distinct) mem']

end Json

end TableQuery

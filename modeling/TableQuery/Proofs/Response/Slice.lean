import TableQuery.Proofs.Number.Word
import TableQuery.Proofs.Response.SliceName

/-!
# Slices

A slice is the part of a text or an array between two places. A negative index counts from the end, and an index that
leads out of the sequence is held at the nearer end (`Transform.clamp`); an end that is left out is that of the sequence.
Which part is meant is said without cutting: so much stands before it, and so much up to its last item (`Occupies`).

Parts that meet make up the part between the outer places, and there is only one part between two places. So a sequence
that is cut in two at any index is its two slices.

## What is proved

`Transform.occupies_sliceList`: a slice is the part between the places of its indices.
`TransformRegistry.apply_of_sliceName`: what becomes of a value under the name of a slice, whatever else is registered.
`TransformRegistry.slices_and_splits`: slices of texts and arrays, and that nothing is lost between two that meet.
-/

namespace TableQuery

/-! ## Parts of a list -/

/-- A list is the part of another from one place on and before a later one. -/
def Occupies {α : Type} (part items : List α) (first last : Int) : Prop :=
  ∃ before after, items = before ++ part ++ after ∧ (before.length : Int) = first ∧ ((before ++ part).length : Int) = last

namespace Occupies

variable {α : Type} {part next other items : List α} {first middle last : Int}

theorem whole (items : List α) : Occupies items items 0 items.length := ⟨[], [], by simp, rfl, rfl⟩

/-- Two parts that meet are one part. -/
theorem append (h : Occupies part items first middle) (h' : Occupies next items middle last) :
    Occupies (part ++ next) items first last := by
  obtain ⟨before, after, rfl, begins, meets⟩ := h
  obtain ⟨before', after', same, meets', ends⟩ := h'
  have length : (before ++ part).length = before'.length := by omega
  rw [List.append_assoc before'] at same
  obtain ⟨rfl, rfl⟩ := List.append_inj same length
  exact ⟨before, after', by rw [List.append_assoc, List.append_assoc, List.append_assoc], begins,
    by rwa [List.append_assoc] at ends⟩

/-- There is only one part between two places. -/
theorem unique (h : Occupies part items first last) (h' : Occupies other items first last) : part = other := by
  obtain ⟨before, after, rfl, begins, ends⟩ := h
  obtain ⟨before', after', same, begins', ends'⟩ := h'
  have upTo := (List.append_inj same (by omega)).1
  exact (List.append_inj upTo (by omega)).2

/-- Two parts that meet, of which one begins with the list and the other ends with it, are the list. -/
theorem append_eq (h : Occupies part items 0 middle) (h' : Occupies next items middle items.length) :
    part ++ next = items :=
  (h.append h').unique (whole items)

end Occupies

theorem occupies_drop_take {α : Type} {items : List α} {first last : Nat} (hfirst : first ≤ items.length)
    (hlast : last ≤ items.length) : Occupies ((items.take last).drop first) items first (max (first : Int) last) := by
  have before : (items.take first).length = first := List.length_take_of_le hfirst
  rcases Nat.le_total first last with ordered | crossed
  · have split : items.take last = items.take first ++ (items.take last).drop first := by
      conv_lhs => rw [← List.take_append_drop first (items.take last), List.take_take, Nat.min_eq_left ordered]
    refine ⟨items.take first, items.drop last, ?_, congrArg _ before, ?_⟩
    · rw [← split, List.take_append_drop]
    · rw [← split, List.length_take_of_le hlast]
      omega
  · -- The places cross: nothing is left, and it stands at the first of them.
    have nothing : (items.take last).drop first = [] :=
      List.drop_eq_nil_of_le ((List.length_take_le last items).trans crossed)
    refine ⟨items.take first, items.drop first, ?_, congrArg _ before, ?_⟩
    · rw [nothing, List.append_nil, List.take_append_drop]
    · rw [nothing, List.append_nil, before]
      omega

namespace Transform

/-! ## Places -/

/-- The place of an index among so many items: a negative one counts from the end, and both are held within the items. -/
def clamp (size : Nat) (i : Int) : Int := max 0 (min (if i < 0 then size + i else i) size)

variable {size : Nat} {i : Int}

theorem position_eq_clamp (size : Nat) (i : Int) : (position size i : Int) = clamp size i := by
  unfold position clamp
  split_ifs <;> omega

theorem position_le (size : Nat) (i : Int) : position size i ≤ size := by
  unfold position
  split_ifs <;> omega

theorem clamp_zero (size : Nat) : clamp size 0 = 0 := by
  unfold clamp
  rw [if_neg (Int.lt_irrefl 0)]
  omega

theorem clamp_nonneg (size : Nat) (i : Int) : 0 ≤ clamp size i := Int.le_max_left _ _

theorem clamp_le (size : Nat) (i : Int) : clamp size i ≤ size := by
  unfold clamp
  omega

/-- A slice is the part between the places of its indices, and is empty where they cross. -/
theorem occupies_sliceList {α : Type} (start : Int) (stop : Option Int) (items : List α) :
    Occupies (sliceList start stop items) items (clamp items.length start)
      (max (clamp items.length start) (stop.elim items.length (clamp items.length))) := by
  unfold sliceList
  dsimp only
  cases stop with
  | none =>
    have part := occupies_drop_take (position_le items.length start) (Nat.le_refl items.length)
    rwa [position_eq_clamp] at part
  | some stop =>
    have part := occupies_drop_take (position_le items.length start) (position_le items.length stop)
    rwa [position_eq_clamp, position_eq_clamp] at part

/-- A list is its slice up to an index and its slice from there on. -/
theorem sliceList_append_sliceList {α : Type} (k : Int) (items : List α) :
    sliceList 0 (some k) items ++ sliceList k none items = items := by
  have front := occupies_sliceList 0 (some k) items
  have back := occupies_sliceList k none items
  rw [clamp_zero, Option.elim_some, max_eq_right (clamp_nonneg _ k)] at front
  rw [Option.elim_none, max_eq_right (clamp_le _ k)] at back
  exact front.append_eq back

theorem isIndex_iff : isIndex i = true ↔ FitsWord i := by
  unfold isIndex FitsWord
  rw [Bool.and_eq_true, decide_eq_true_eq, decide_eq_true_eq, Int64.toInt_minValue, Int64.toInt_maxValue]
  omega

end Transform

/-! ## Slices of values -/

/-- The kinds of values that are sequences: texts, of bytes, and arrays, of values. -/
inductive Json.IsSequence : {α : Type} → (List α → Json) → Prop
  | text : IsSequence Json.str
  | array : IsSequence Json.arr

theorem Json.IsSequence.slice_eq {α : Type} {wrap : List α → Json} (sequence : Json.IsSequence wrap) (start : Int)
    (stop : Option Int) (items : List α) :
    Transform.slice start stop (wrap items) = wrap (Transform.sliceList start stop items) := by
  cases sequence with
  | text => rfl
  | array => rfl

namespace TransformRegistry

open Transform (SliceName clamp)

variable {name : Bytes} {start : Int} {stop : Option Int}

/-- The name of a slice stands for the slice, whatever is registered, unless an index does not fit 64 bits. -/
theorem apply_of_sliceName (r : TransformRegistry) (spelled : SliceName name start stop) (value row : Json) :
    r.apply name value row = if FitsWord start ∧ ∀ i ∈ stop, FitsWord i then .ok (Transform.slice start stop value)
      else .error .indexOutOfRange := by
  have fits : (Transform.isIndex start && (stop.map Transform.isIndex).getD true) = true
      ↔ FitsWord start ∧ ∀ i ∈ stop, FitsWord i := by
    cases stop <;> simp [Transform.isIndex_iff]
  unfold apply
  rw [Transform.sliceIndices?_eq_some_iff.mpr spelled]
  dsimp only
  simp only [fits]

/-- Any indices of 64 bits have a name, under which a text or an array becomes the part of it between their places. Cut in
two at any index, a text or an array is its two slices. -/
theorem slices_and_splits (r : TransformRegistry) (row : Json) {α : Type} {wrap : List α → Json}
    (sequence : Json.IsSequence wrap) (items : List α) :
    (∀ (start : Int64) (stop : Option Int64),
        (∃ name, SliceName name start.toInt (stop.map Int64.toInt))
          ∧ ∀ name, SliceName name start.toInt (stop.map Int64.toInt) →
            ∃ part, r.apply name (wrap items) row = .ok (wrap part)
              ∧ Occupies part items (clamp items.length start.toInt)
                (max (clamp items.length start.toInt) (stop.elim items.length fun i => clamp items.length i.toInt)))
      ∧ ∀ (k : Int64) (head tail : Bytes), SliceName head 0 (some k.toInt) → SliceName tail k.toInt none →
        ∃ front back, r.apply head (wrap items) row = .ok (wrap front) ∧ r.apply tail (wrap items) row = .ok (wrap back)
          ∧ front ++ back = items := by
  have sliced (start : Int64) (stop : Option Int64) {name : Bytes}
      (spelled : SliceName name start.toInt (stop.map Int64.toInt)) :
      r.apply name (wrap items) row
        = .ok (wrap (Transform.sliceList start.toInt (stop.map Int64.toInt) items)) := by
    have fits : ∀ i ∈ stop.map Int64.toInt, FitsWord i := by
      rintro i mem
      obtain ⟨word, -, rfl⟩ := Option.mem_map.mp mem
      exact fitsWord_toInt word
    rw [apply_of_sliceName r spelled, if_pos ⟨fitsWord_toInt start, fits⟩, sequence.slice_eq]
  refine ⟨fun start stop => ⟨⟨_, .plain _ _⟩, fun name spelled => ⟨_, sliced start stop spelled, ?_⟩⟩,
    fun k head tail hhead htail => ?_⟩
  · have part := Transform.occupies_sliceList start.toInt (stop.map Int64.toInt) items
    rwa [Option.elim_map] at part
  · exact ⟨_, _, sliced 0 (some k) hhead, sliced k none htail,
      Transform.sliceList_append_sliceList k.toInt items⟩

/-- Letters from the front and from the end, indices that cross, the least and the greatest index, and an array cut in
two. -/
theorem slices_and_splits_letters :
    builtin.apply "slice(1,3)" (.str "abcdef") .null = .ok (.str "bc")
      ∧ builtin.apply "slice( -2 )" (.str "abcdef") .null = .ok (.str "ef")
      ∧ builtin.apply "slice(4, -5)" (.str "abcdef") .null = .ok (.str [])
      ∧ builtin.apply "slice(-9223372036854775808,9223372036854775807)" (.str "abcdef") .null = .ok (.str "abcdef")
      ∧ ∃ front back, builtin.apply "slice(0,-1)" (.arr [.int 1, .int 2, .int 3]) .null = .ok (.arr front)
        ∧ builtin.apply "slice(-1)" (.arr [.int 1, .int 2, .int 3]) .null = .ok (.arr back)
        ∧ front ++ back = [.int 1, .int 2, .int 3] := by
  obtain ⟨slices, -⟩ := slices_and_splits builtin .null .text (Bytes.ofString "abcdef")
  have letters {name part : Bytes} (start : Int64) (stop : Option Int64)
      (read : Transform.sliceIndices? name = some (start.toInt, stop.map Int64.toInt))
      (there : Occupies part (Bytes.ofString "abcdef") (clamp 6 start.toInt)
        (max (clamp 6 start.toInt) (stop.elim 6 fun i => clamp 6 i.toInt))) :
      builtin.apply name (.str "abcdef") .null = .ok (.str part) := by
    obtain ⟨other, given, place⟩ := (slices start stop).2 name (Transform.sliceIndices?_eq_some_iff.mp read)
    rw [given, place.unique there]
  obtain ⟨-, splits⟩ := slices_and_splits builtin .null .array [.int 1, .int 2, .int 3]
  refine ⟨letters 1 (some 3) (by decide) ⟨"a", "def", by decide⟩, letters (-2) none (by decide) ⟨"abcd", [], by decide⟩,
    letters 4 (some (-5)) (by decide) ⟨"abcd", "ef", by decide⟩,
    letters .minValue (some .maxValue) (by decide) ⟨[], [], by decide⟩, ?_⟩
  exact splits (-1) _ _ (Transform.sliceIndices?_eq_some_iff.mp (by decide))
    (Transform.sliceIndices?_eq_some_iff.mp (by decide))

end TransformRegistry

end TableQuery

import TableQuery.Proofs.Sql.Connective

/-!
# Conditions put together twice

A conjunction of conjunctions has no parentheses that the conjunction of all parts would not have: a part is put in
parentheses for the connective that it has itself, and a conjunction has the one that needs none beside others. A part
without text vanishes on either level, and a single part is handed on with its own connective, so it is put in
parentheses on the outer level just where it would have been on the inner. So it is with disjunctions.

## What is proved

`Fragment.combine_flatten`: what is put together list by list and then as a whole is the same fragment, in text, values
and connective, as what is put together at once; `combine_insert` says it of one list among other parts. The unit is
the part without text: `combine_insert_of_isEmpty`.
-/

namespace TableQuery

namespace Fragment

variable {op : Bytes} {kind wraps : Connective} {parts parts' : List Fragment} {f : Fragment}

/-! ## Parts without text -/

/-- What is put together depends only on the parts that have text. -/
theorem combine_of_present (same : present parts = present parts') :
    combine op kind wraps parts = combine op kind wraps parts' := by
  unfold present at same
  unfold combine
  rw [same]

theorem present_append (parts parts' : List Fragment) : present (parts ++ parts') = present parts ++ present parts' :=
  List.filter_append parts parts'

theorem present_cons_of_isEmpty (none : f.isEmpty = true) (parts : List Fragment) :
    present (f :: parts) = present parts := by
  apply List.filter_cons_of_neg
  rw [none]
  exact Bool.false_ne_true

theorem present_cons_of_filled (filled : f.isEmpty = false) (parts : List Fragment) :
    present (f :: parts) = f :: present parts := by
  apply List.filter_cons_of_pos
  rw [filled]
  rfl

theorem present_insert_empty (before after : List Fragment) :
    present (before ++ empty :: after) = present (before ++ after) := by
  rw [present_append, present_append, present_cons_of_isEmpty rfl]

/-- A part without text may stand anywhere among the parts. -/
theorem combine_insert_of_isEmpty (none : f.isEmpty = true) (before after : List Fragment) :
    combine op kind wraps (before ++ f :: after) = combine op kind wraps (before ++ after) := by
  apply combine_of_present
  rw [present_append, present_append, present_cons_of_isEmpty none]

/-- A part alone stays as it is. -/
theorem combine_alone (filled : f.isEmpty = false) : combine op kind wraps [f] = f :=
  combine_singleton (present_cons_of_filled filled [])

/-! ## Values -/

theorem params_guarded (wraps : Connective) (f : Fragment) : (guarded wraps f).params = f.params := by
  unfold guarded
  split_ifs
  · simp [wrapped]
  · rfl

/-- The values of a combination are those of its parts. -/
theorem params_combine : (combine op kind wraps parts).params = (present parts).flatMap params := by
  cases kept : present parts with
  | nil =>
    rw [combine_nil kept]
    rfl
  | cons f rest =>
    cases rest with
    | nil => rw [combine_singleton kept, List.flatMap_singleton]
    | cons g rest =>
      rw [combine_cons_cons kept]
      change (join _ _).params = _
      rw [params_join, params_guarded, List.flatMap_cons, List.flatMap_cons, params_guarded, List.flatMap_map,
        List.flatMap_cons]
      simp only [params_guarded]

/-! ## Joined texts in joined texts -/

theorem withKind_join (op : Bytes) (kind : Connective) (f : Fragment) (fs : List Fragment) :
    (join op (f :: fs)).withKind kind
      = { sql := f.sql ++ fs.flatMap fun g => op ++ g.sql, params := f.params ++ fs.flatMap params, kind } := by
  rw [withKind, sql_join, params_join]

/-- Joined parts among parts that are joined with the same separator. -/
theorem join_insert_join (op : Bytes) (kind inner : Connective) (before after : List Fragment) (f : Fragment)
    (fs : List Fragment) :
    (join op (before ++ (join op (f :: fs)).withKind inner :: after)).withKind kind
      = (join op (before ++ f :: fs ++ after)).withKind kind := by
  cases before with
  | nil =>
    rw [List.nil_append, List.nil_append, List.cons_append]
    simp only [withKind_join, List.flatMap_append, List.append_assoc]
  | cons b before =>
    simp only [List.cons_append, withKind_join, List.flatMap_append, List.flatMap_cons, List.append_assoc]

/-- Two or more parts are joined, those in parentheses that need them. -/
theorem combine_eq_join (several : 2 ≤ (present parts).length) :
    combine op kind wraps parts = (join op ((present parts).map (guarded wraps))).withKind kind := by
  match h : present parts, several with
  | f :: g :: fs, _ => exact combine_cons_cons h

/-! ## Lists in a list -/

theorem guarded_of_kind (free : f.kind ≠ wraps) : guarded wraps f = f := if_neg fun same => free (beq_iff_eq.mp same)

/-- Two or more parts that are put together stand for themselves among others. -/
theorem combine_insert_of_several (free : kind ≠ wraps) (several : 2 ≤ (present parts).length)
    (before after : List Fragment) :
    combine op kind wraps (before ++ combine op kind wraps parts :: after)
      = combine op kind wraps (before ++ parts ++ after) := by
  have inner : combine op kind wraps parts = (join op ((present parts).map (guarded wraps))).withKind kind :=
    combine_eq_join several
  have filled : (combine op kind wraps parts).isEmpty = false := by
    rw [Bool.eq_false_iff]
    intro none
    rw [isEmpty_combine] at none
    rw [none] at several
    cases several
  have bare : guarded wraps (combine op kind wraps parts) = combine op kind wraps parts := by
    apply guarded_of_kind
    rw [inner]
    exact free
  have outer : present (before ++ combine op kind wraps parts :: after)
      = present before ++ combine op kind wraps parts :: present after := by
    rw [present_append, present_cons_of_filled filled]
  have flat : present (before ++ parts ++ after) = present before ++ present parts ++ present after := by
    rw [present_append, present_append]
  by_cases alone : present before = [] ∧ present after = []
  · -- Nothing stands beside the list, so it is handed on as it is.
    rw [combine_singleton (outer.trans (by rw [alone.1, alone.2, List.nil_append]))]
    apply combine_of_present
    rw [flat, alone.1, alone.2, List.nil_append, List.append_nil]
  · have some : 1 ≤ (present before).length + (present after).length := by
      by_contra none
      rw [not_le, Nat.lt_one_iff, Nat.add_eq_zero_iff, List.length_eq_zero_iff, List.length_eq_zero_iff] at none
      exact alone none
    have severalOuter : 2 ≤ (present (before ++ combine op kind wraps parts :: after)).length := by
      rw [outer, List.length_append, List.length_cons]
      omega
    have severalFlat : 2 ≤ (present (before ++ parts ++ after)).length := by
      rw [flat, List.length_append, List.length_append]
      omega
    rw [combine_eq_join severalOuter, combine_eq_join severalFlat, outer, flat]
    simp only [List.map_append, List.map_cons, bare]
    obtain ⟨f, fs, parts_eq⟩ := List.exists_cons_of_length_pos (Nat.zero_lt_of_lt several)
    rw [inner, parts_eq, List.map_cons]
    exact join_insert_join op kind kind _ _ _ _

/-- What is put together stands for its parts among others, if its connective needs no parentheses there. -/
theorem combine_insert (free : kind ≠ wraps) (before parts after : List Fragment) :
    combine op kind wraps (before ++ combine op kind wraps parts :: after)
      = combine op kind wraps (before ++ parts ++ after) := by
  match h : present parts with
  | [] =>
    rw [combine_nil h, combine_insert_of_isEmpty rfl]
    apply combine_of_present
    rw [present_append, present_append, present_append, h, List.append_nil]
  | [f] =>
    have filled : f.isEmpty = false := by
      have mem : f ∈ present parts := h ▸ List.mem_singleton_self f
      simpa using (List.mem_filter.mp mem).2
    rw [combine_singleton h]
    apply combine_of_present
    rw [present_append, present_append, present_append, present_cons_of_filled filled, h, List.append_assoc]
    rfl
  | f :: g :: fs =>
    apply combine_insert_of_several free
    rw [h]
    exact Nat.le_add_left 2 fs.length

/-- Lists that are put together one by one and then as a whole are put together at once. -/
theorem combine_flatten (free : kind ≠ wraps) (lists : List (List Fragment)) :
    combine op kind wraps (lists.map (combine op kind wraps)) = combine op kind wraps lists.flatten := by
  have beside (before : List Fragment) :
      combine op kind wraps (before ++ lists.map (combine op kind wraps))
        = combine op kind wraps (before ++ lists.flatten) := by
    induction lists generalizing before with
    | nil => rfl
    | cons parts lists ih =>
      rw [List.map_cons, combine_insert free, ih, List.flatten_cons, List.append_assoc]
  exact beside []

end Fragment

end TableQuery

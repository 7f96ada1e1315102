import Mathlib.Data.List.DropRight
import TableQuery.Text.Bytes

/-!
# Cutting and trimming

A text is cut at its first separator or at every one, and trimmed of a class of bytes at its ends. Each way the text can
be put together again, from the pieces with a separator between them or from what is left with trimmed bytes around it.

## What is proved

`Bytes.cut_eq_some` and `Bytes.cut_eq_none`: a text is cut in two at its first separator, and not cut if it has none.
`Bytes.splitOn_eq_iff`: the pieces of a text are the only ones without a separator that make up the text.
`Bytes.exists_trim` and `Bytes.trim_padded`: a text is what trimming leaves of it with trimmed bytes around, and around
bytes that stay they are all that is trimmed.
-/

namespace TableQuery

namespace Bytes

/-! ## Cutting at the first separator -/

/-- What a text is cut into at its first separator has none in front, and is the text with the separator between. -/
theorem cut_eq_some {sep : UInt8} {s before after : Bytes} :
    cut sep s = some (before, after) ↔ sep ∉ before ∧ s = before ++ sep :: after := by
  induction s generalizing before with
  | nil => exact iff_of_false nofun fun h => List.append_ne_nil_of_right_ne_nil _ (List.cons_ne_nil _ _) h.2.symm
  | cons b s ih =>
    rw [cut]
    by_cases here : b = sep
    · subst here
      rw [beq_self_eq_true, if_pos rfl]
      cases before with
      | nil => simp
      | cons x before =>
        refine iff_of_false nofun fun ⟨absent, eq⟩ => absent ?_
        rw [(List.cons.inj eq).1]
        exact List.mem_cons_self
    · rw [if_neg (by rwa [beq_iff_eq])]
      cases before with
      | nil =>
        refine iff_of_false (fun h => ?_) fun ⟨_, eq⟩ => here (List.cons.inj eq).1
        obtain ⟨parts, -, eq⟩ := Option.map_eq_some_iff.mp h
        cases eq
      | cons x before =>
        rw [Option.map_eq_some_iff, List.mem_cons, not_or, List.cons_append, List.cons.injEq]
        constructor
        · rintro ⟨⟨front, back⟩, parts, eq⟩
          cases eq
          obtain ⟨absent, rfl⟩ := ih.mp parts
          exact ⟨⟨Ne.symm here, absent⟩, rfl, rfl⟩
        · rintro ⟨⟨-, absent⟩, rfl, rest⟩
          exact ⟨(before, after), ih.mpr ⟨absent, rest⟩, rfl⟩

theorem cut_eq_none {sep : UInt8} {s : Bytes} : cut sep s = none ↔ sep ∉ s := by
  induction s with
  | nil => exact iff_of_true rfl List.not_mem_nil
  | cons b s ih =>
    rw [cut, List.mem_cons, not_or]
    by_cases here : b = sep
    · subst here
      rw [beq_self_eq_true, if_pos rfl]
      exact iff_of_false nofun fun h => h.1 rfl
    · rw [if_neg (by rwa [beq_iff_eq]), Option.map_eq_none_iff, ih]
      exact (and_iff_right (Ne.symm here)).symm

/-! ## Cutting at every separator -/

section Split

variable {sep : UInt8} {parts : List Bytes}

theorem splitOn_of_notMem {s : Bytes} (h : sep ∉ s) : splitOn sep s = [s] := by
  induction s with
  | nil => rfl
  | cons b rest ih =>
    rw [List.mem_cons, not_or] at h
    rw [splitOn, ih h.2, if_neg (by simpa using Ne.symm h.1)]

theorem splitOn_append {s : Bytes} (h : sep ∉ s) (more : Bytes) :
    splitOn sep (s ++ sep :: more) = s :: splitOn sep more := by
  induction s with
  | nil => rw [List.nil_append, splitOn, if_pos (beq_self_eq_true sep)]
  | cons b rest ih =>
    rw [List.mem_cons, not_or] at h
    rw [List.cons_append, splitOn, ih h.2, if_neg (by simpa using Ne.symm h.1)]

theorem exists_splitOn_of_mem {s : Bytes} (h : sep ∈ s) :
    ∃ a b more, splitOn sep s = a :: b :: more := by
  obtain ⟨before, after, rfl, fresh⟩ := List.eq_append_cons_of_mem h
  obtain ⟨b, more, split⟩ := List.exists_cons_of_ne_nil (splitOn_ne_nil sep after)
  exact ⟨before, b, more, by rw [splitOn_append fresh, split]⟩

theorem join_cons_cons (sep : UInt8) (part next : Bytes) (more : List Bytes) :
    join [sep] (part :: next :: more) = part ++ sep :: join [sep] (next :: more) := by
  rw [join, List.intercalate_cons_cons, List.append_assoc, List.singleton_append]
  rfl

/-- Pieces without a separator in them are what their text is cut into. -/
theorem splitOn_join (some : parts ≠ []) (free : ∀ part ∈ parts, sep ∉ part) :
    splitOn sep (join [sep] parts) = parts := by
  induction parts with
  | nil => exact absurd rfl some
  | cons part more ih =>
    have first : sep ∉ part := free part List.mem_cons_self
    cases more with
    | nil => rw [join, List.intercalate_singleton, splitOn_of_notMem first]
    | cons next more =>
      have others := ih (List.cons_ne_nil next more) fun p mem => free p (List.mem_cons_of_mem part mem)
      rw [join_cons_cons, splitOn_append first, others]

/-- What a text is cut into has no separator in it, and is the text again with separators between the pieces. -/
theorem splitOn_spec (sep : UInt8) (s : Bytes) :
    (∀ part ∈ splitOn sep s, sep ∉ part) ∧ join [sep] (splitOn sep s) = s := by
  induction hlen : s.length using Nat.strong_induction_on generalizing s with
  | _ n ih =>
    by_cases h : sep ∈ s
    · obtain ⟨before, after, rfl, fresh⟩ := List.eq_append_cons_of_mem h
      have shorter : after.length < n := by
        rw [← hlen, List.length_append, List.length_cons]
        omega
      obtain ⟨free, joined⟩ := ih after.length shorter after rfl
      rw [splitOn_append fresh]
      refine ⟨List.forall_mem_cons.mpr ⟨fresh, free⟩, ?_⟩
      obtain ⟨next, more, split⟩ := List.exists_cons_of_ne_nil (splitOn_ne_nil sep after)
      rw [split] at joined ⊢
      rw [join_cons_cons, joined]
    · rw [splitOn_of_notMem h, join, List.intercalate_singleton]
      exact ⟨List.forall_mem_singleton.mpr h, rfl⟩

/-- The pieces of a text are the only ones without a separator that make up the text. -/
theorem splitOn_eq_iff {s : Bytes} :
    splitOn sep s = parts ↔ parts ≠ [] ∧ (∀ part ∈ parts, sep ∉ part) ∧ join [sep] parts = s := by
  constructor
  · rintro rfl
    exact ⟨splitOn_ne_nil sep s, splitOn_spec sep s⟩
  · rintro ⟨some, free, rfl⟩
    exact splitOn_join some free

end Split

/-! ## Trimming -/

section Trim

variable {p : UInt8 → Bool} {s before after : Bytes}

theorem exists_dropEndWhile (p : UInt8 → Bool) (s : Bytes) :
    ∃ after, (∀ b ∈ after, p b = true) ∧ s = dropEndWhile p s ++ after :=
  ⟨s.rtakeWhile p, fun _ => List.mem_rtakeWhile_imp, (List.rdropWhile_append_rtakeWhile).symm⟩

theorem dropEndWhile_append (kept : ∀ b ∈ s, p b = false) (dropped : ∀ b ∈ after, p b = true) :
    dropEndWhile p (s ++ after) = s := by
  have stays : s.reverse.dropWhile p = s.reverse := by
    rw [List.dropWhile_eq_self_iff]
    intro filled
    rw [kept _ (List.mem_reverse.mp (List.getElem_mem filled))]
    exact Bool.false_ne_true
  unfold dropEndWhile
  rw [List.reverse_append, List.dropWhile_append_of_pos fun b mem => dropped b (List.mem_reverse.mp mem), stays,
    List.reverse_reverse]

/-- A text is what trimming leaves of it, with trimmed bytes around. -/
theorem exists_trim (p : UInt8 → Bool) (s : Bytes) :
    ∃ before after, (∀ b ∈ before, p b = true) ∧ (∀ b ∈ after, p b = true) ∧ s = before ++ trim p s ++ after := by
  obtain ⟨after, dropped, rest⟩ := exists_dropEndWhile p (s.dropWhile p)
  refine ⟨s.takeWhile p, after, fun b => List.mem_takeWhile_imp, dropped, ?_⟩
  unfold trim
  rw [List.append_assoc, ← rest, List.takeWhile_append_dropWhile]

/-- Around bytes that stay, all others are trimmed. -/
theorem trim_padded (hbefore : ∀ b ∈ before, p b = true) (hafter : ∀ b ∈ after, p b = true)
    (kept : ∀ b ∈ s, p b = false) : trim p (before ++ s ++ after) = s := by
  unfold trim
  rw [List.append_assoc, List.dropWhile_append_of_pos hbefore]
  cases s with
  | nil =>
    rw [List.nil_append, List.dropWhile_eq_nil_iff.mpr hafter]
    rfl
  | cons b rest =>
    rw [List.cons_append, List.dropWhile_cons_of_neg (by rw [kept b List.mem_cons_self]; exact Bool.false_ne_true),
      ← List.cons_append, dropEndWhile_append kept hafter]

end Trim

end Bytes

end TableQuery

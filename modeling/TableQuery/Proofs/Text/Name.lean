import Mathlib
import TableQuery.Text.Name

/-!
# The grammar of dotted names

A safe identifier is read in one pass that keeps nothing but whether a segment has to begin at the next byte
(`Name.scan`). The grammar says without a reader what a dotted name is: a segment, or a segment with a dot and a dotted
name after it (`Name.Dotted`).

## What is proved

`Name.isSafeIdentifier_iff`: the safe identifiers are the dotted names of 1 to 128 bytes, and no other text is one.
`Name.Dotted.mem_alphabet`: a dotted name has no other bytes than letters, digits, underscores and dots.
-/

namespace TableQuery

/-! ## Bytes of names -/

namespace Ascii

/-- The letters, one by one. -/
def letters : Bytes := "ABCDEFGHIJKLMNOPQRSTUVWXYZabcdefghijklmnopqrstuvwxyz"

/-- The digits, one by one. -/
def digits : Bytes := "0123456789"

variable {b : UInt8}

/-- A text that has all bytes of a range has each byte in it. -/
theorem mem_of_range {low count : Nat} {s : Bytes} (every : ∀ n ∈ List.range' low count, UInt8.ofNat n ∈ s)
    (above : low ≤ b.toNat) (below : b.toNat < low + count) : b ∈ s := by
  have mem := every b.toNat (List.mem_range'_1.mpr ⟨above, below⟩)
  rwa [UInt8.ofNat_toNat] at mem

theorem isAlpha_iff : isAlpha b = true ↔ b ∈ letters := by
  have capital : ∀ n ∈ List.range' 65 26, UInt8.ofNat n ∈ letters := by decide +kernel
  have small : ∀ n ∈ List.range' 97 26, UInt8.ofNat n ∈ letters := by decide +kernel
  have back : letters.all isAlpha = true := by decide +kernel
  refine ⟨fun alpha => ?_, List.all_eq_true.mp back b⟩
  unfold isAlpha isUpper isLower at alpha
  simp only [Bool.or_eq_true, Bool.and_eq_true, decide_eq_true_eq, UInt8.le_iff_toNat_le] at alpha
  rcases alpha with ⟨above, below⟩ | ⟨above, below⟩
  · exact mem_of_range capital above (Nat.lt_succ_of_le below)
  · exact mem_of_range small above (Nat.lt_succ_of_le below)

theorem isDigit_iff_mem : isDigit b = true ↔ b ∈ digits := by
  have digit : ∀ n ∈ List.range' 48 10, UInt8.ofNat n ∈ digits := by decide +kernel
  have back : digits.all isDigit = true := by decide +kernel
  refine ⟨fun read => ?_, List.all_eq_true.mp back b⟩
  unfold isDigit at read
  simp only [Bool.and_eq_true, decide_eq_true_eq, UInt8.le_iff_toNat_le] at read
  exact mem_of_range digit read.1 (Nat.lt_succ_of_le read.2)

theorem isNameStart_iff : isNameStart b = true ↔ b ∈ letters ∨ b = underscore := by
  rw [isNameStart, Bool.or_eq_true, isAlpha_iff, beq_iff_eq]

theorem isNameRest_iff : isNameRest b = true ↔ b ∈ letters ∨ b ∈ digits ∨ b = underscore := by
  rw [isNameRest, isAlnum, Bool.or_eq_true, Bool.or_eq_true, isAlpha_iff, isDigit_iff_mem, beq_iff_eq, or_assoc]

/-- A byte of a class without the dot is not the dot. -/
theorem ne_dot_of_class {p : UInt8 → Bool} (apart : p dot = false) (h : p b = true) : (b == dot) = false := by
  rw [beq_eq_false_iff_ne]
  rintro rfl
  exact Bool.false_ne_true (apart.symm.trans h)

end Ascii

namespace Name

/-! ## The grammar -/

/-- A segment of a name: a letter or an underscore, and after it letters, digits and underscores. -/
def IsSegment (s : Bytes) : Prop :=
  ∃ first rest, s = first :: rest ∧ (first ∈ Ascii.letters ∨ first = Ascii.underscore)
    ∧ ∀ b ∈ rest, b ∈ Ascii.letters ∨ b ∈ Ascii.digits ∨ b = Ascii.underscore

/-- One or more segments, with a dot between each and the next. -/
inductive Dotted : Bytes → Prop where
  | segment {s : Bytes} (only : IsSegment s) : Dotted s
  | dot {s rest : Bytes} (first : IsSegment s) (more : Dotted rest) : Dotted (s ++ Ascii.dot :: rest)

/-- What a dotted name is made of. -/
def alphabet : Bytes := Ascii.letters ++ Ascii.digits ++ [Ascii.underscore, Ascii.dot]

variable {s t : Bytes}

theorem IsSegment.mem_alphabet (h : IsSegment s) : ∀ b ∈ s, b ∈ alphabet := by
  obtain ⟨first, rest, rfl, begins, goesOn⟩ := h
  unfold alphabet
  simp only [List.mem_append, List.mem_cons, List.not_mem_nil, or_false]
  intro b mem
  rcases mem with rfl | mem
  · tauto
  · have among := goesOn b mem
    tauto

/-- A dotted name has no other bytes. -/
theorem Dotted.mem_alphabet (h : Dotted s) : ∀ b ∈ s, b ∈ alphabet := by
  induction h with
  | segment only => exact only.mem_alphabet
  | dot first _ ih =>
    rw [List.forall_mem_append, List.forall_mem_cons]
    exact ⟨first.mem_alphabet, by decide, ih⟩

theorem Dotted.length_pos (h : Dotted s) : 1 ≤ s.length := by
  cases h with
  | segment only =>
    obtain ⟨first, rest, rfl, -⟩ := only
    exact Nat.succ_pos _
  | dot first more =>
    rw [List.length_append, List.length_cons]
    omega

/-! ## The reader -/

/-- Where a segment has to begin, the next byte begins one. -/
theorem scan_true_cons (b : UInt8) (s : Bytes) : scan true (b :: s) = (Ascii.isNameStart b && scan false s) := by
  rw [scan]
  by_cases start : Ascii.isNameStart b = true
  · rw [Ascii.ne_dot_of_class rfl start]
    rfl
  · rw [Bool.not_eq_true] at start
    rw [start]
    cases b == Ascii.dot <;> rfl

/-- Within a segment, the next byte is a dot, after which another one has to begin, or belongs to the segment. -/
theorem scan_false_cons (b : UInt8) (s : Bytes) :
    scan false (b :: s) = if b == Ascii.dot then scan true s else Ascii.isNameRest b && scan false s := by
  rw [scan]
  rfl

theorem scan_append_of_rest (h : ∀ b ∈ s, Ascii.isNameRest b = true) : scan false (s ++ t) = scan false t := by
  induction s with
  | nil => rfl
  | cons b s ih =>
    rw [List.forall_mem_cons] at h
    rw [List.cons_append, scan_false_cons, Ascii.ne_dot_of_class rfl h.1, h.1, ih h.2]
    rfl

/-- A segment is read where one has to begin. -/
theorem IsSegment.scan_append (h : IsSegment s) (t : Bytes) : scan true (s ++ t) = scan false t := by
  obtain ⟨first, rest, rfl, begins, goesOn⟩ := h
  have rests : ∀ b ∈ rest, Ascii.isNameRest b = true := fun b mem => Ascii.isNameRest_iff.mpr (goesOn b mem)
  rw [List.cons_append, scan_true_cons, Ascii.isNameStart_iff.mpr begins, scan_append_of_rest rests, Bool.true_and]

/-- Dotted names are read to their ends. -/
theorem Dotted.scan_eq_true (h : Dotted s) : scan true s = true := by
  induction h with
  | segment only =>
    have whole := only.scan_append []
    rwa [List.append_nil] at whole
  | dot first _ ih =>
    rw [first.scan_append]
    exact ih

/-- A segment that has begun goes on to the end of the text, or to a dot after which the next one begins. -/
theorem exists_of_scan_false (h : scan false s = true) :
    ∃ run, (∀ b ∈ run, Ascii.isNameRest b = true)
      ∧ (s = run ∨ ∃ rest, s = run ++ Ascii.dot :: rest ∧ scan true rest = true) := by
  induction s with
  | nil => exact ⟨[], List.forall_mem_nil _, .inl rfl⟩
  | cons b s ih =>
    rw [scan_false_cons] at h
    split_ifs at h with dot
    · rw [beq_iff_eq] at dot
      exact ⟨[], List.forall_mem_nil _, .inr ⟨s, by rw [dot, List.nil_append], h⟩⟩
    · rw [Bool.and_eq_true] at h
      obtain ⟨run, rests, ended | ⟨rest, split, begins⟩⟩ := ih h.2
      · exact ⟨b :: run, List.forall_mem_cons.mpr ⟨h.1, rests⟩, .inl (by rw [ended])⟩
      · exact ⟨b :: run, List.forall_mem_cons.mpr ⟨h.1, rests⟩, .inr ⟨rest, by rw [split, List.cons_append], begins⟩⟩

/-- The reader gets to the end of dotted names only. -/
theorem dotted_of_scan (h : scan true s = true) : Dotted s := by
  -- What is after a dot is shorter, and has to be a dotted name again.
  induction size : s.length using Nat.strong_induction_on generalizing s with
  | _ n ih =>
    cases s with
    | nil => cases h
    | cons first s =>
      rw [scan_true_cons, Bool.and_eq_true] at h
      obtain ⟨run, rests, ended⟩ := exists_of_scan_false h.2
      have segment : IsSegment (first :: run) :=
        ⟨first, run, rfl, Ascii.isNameStart_iff.mp h.1, fun b mem => Ascii.isNameRest_iff.mp (rests b mem)⟩
      rcases ended with rfl | ⟨rest, rfl, begins⟩
      · exact .segment segment
      · have shorter : rest.length < n := by
          rw [← size, List.length_cons, List.length_append, List.length_cons]
          omega
        exact .dot segment (ih _ shorter begins rfl)

/-- The safe identifiers are the dotted names of 1 to 128 bytes. -/
theorem isSafeIdentifier_iff : isSafeIdentifier s = true ↔ (1 ≤ s.length ∧ s.length ≤ 128) ∧ Dotted s := by
  unfold isSafeIdentifier maxLength
  rw [Bool.and_eq_true, decide_eq_true_eq]
  constructor
  · rintro ⟨short, read⟩
    have dotted := dotted_of_scan read
    exact ⟨⟨dotted.length_pos, short⟩, dotted⟩
  · rintro ⟨⟨-, short⟩, dotted⟩
    exact ⟨short, dotted.scan_eq_true⟩

end Name

end TableQuery

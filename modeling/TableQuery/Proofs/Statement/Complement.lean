import TableQuery.Proofs.Sql.Listed
import TableQuery.Proofs.Statement.Alike
import TableQuery.Proofs.Statement.Walk

/-!
# Complementary operators

Five operators have an opposite. Given the same column and the same value, an operator and its opposite keep each row
between them, and none keeps a row twice, as far as the column has a value there; the tests for null decide the rest.
It is the checked value that they agree on: an operator that compares by order is given no null, and a list holds none.

A value that names a date preset is no value of an operator. On a field that takes presets it stands for a range of
days, whatever the operator is, so an operator and its opposite ask for the same rows.

## What is proved

`Operator.exactly_one`: what two opposite operators make of one checked value keeps each row once.
`Condition.exactly_one_iff`: so do two filters of a request with the same value, just if the value is not taken for a
preset.
-/

namespace TableQuery

/-- A condition that keeps a row just if another one does not. -/
theorem Fragment.xor_keeps {σ : List Token → Truth} {f g : Fragment} {b : Bool} (hf : f.Keeps σ ↔ b = true)
    (hg : g.Keeps σ ↔ b = false) : Xor (f.Keeps σ) (g.Keeps σ) := by
  rw [xor_iff_iff_not, hf, hg, Bool.not_eq_false]

/-! ## Opposites -/

namespace Operator

/-- The operator that asks for the other rows. -/
def opposite? : Operator → Option Operator
  | eq => some neq
  | isIn => some notIn
  | gt => some lte
  | gte => some lt
  | isNull => some isNotNull
  | _ => none

/-- Whether a value is one that an operator with an opposite decides by: no null where the order counts, a list without
nulls where a list is asked for. -/
def Decides : Operator → Json → Prop
  | gt, v | gte, v => v.isNull = false
  | isIn, v => ∃ values, v = .arr values ∧ ∀ w ∈ values, w.isNull = false
  | _, _ => True

end Operator

namespace Limits

variable {limits : Limits} {field : Bytes} {type : ColumnType} {value v w : Json}

theorem isNull_of_checkElement (h : limits.checkElement field type value = .ok v) : v.isNull = false :=
  (of_checkScalar (Checked.mapError_eq_ok.mp h)).1

/-- Opposite operators take a value for the same, and it is one that they decide by. -/
theorem checkValue_opposite {op op' : Operator} (pair : op.opposite? = some op')
    (hv : limits.checkValue field type op value = .ok v) (hw : limits.checkValue field type op' value = .ok w) :
    v = w ∧ op.Decides v := by
  cases op <;> cases pair <;> unfold checkValue at hv hw <;> dsimp only at hv hw
  case eq =>
    rw [hv] at hw
    exact ⟨Except.ok.inj hw, trivial⟩
  case isNull =>
    rw [hv] at hw
    exact ⟨Except.ok.inj hw, trivial⟩
  case gt | gte =>
    split_ifs at hv hw
    rw [hv] at hw
    exact ⟨Except.ok.inj hw, isNull_of_checkElement hv⟩
  case isIn =>
    obtain ⟨values, checked, rfl, rfl, elements, -⟩ := checkArray_eq_ok.mp hv
    obtain ⟨_, checked', ⟨⟩, rfl, elements', -⟩ := checkArray_eq_ok.mp hw
    rw [elements] at elements'
    refine ⟨congrArg Json.arr (Except.ok.inj elements'), checked, rfl, fun u mem => ?_⟩
    obtain ⟨u', -, element⟩ := Checked.exists_of_mem_mapM elements mem
    exact isNull_of_checkElement element

end Limits

/-! ## Conditions -/

/-- Of two values one comes below the other, or they are equal, and only one of the three. -/
theorem Collation.Orders.trichotomy {c : Collation} {e : List Token} {S : Json → Prop} (h : c.Orders e S) {x v : Json}
    (hx : S x) (hv : S v) :
    (c.below e x v || c.equal e x v) = !c.below e v x ∧ (c.below e v x || c.equal e x v) = !c.below e x v := by
  have less := h.asymm x v hx hv
  have more := h.asymm v x hv hx
  have equal := h.equal_iff x v hx hv
  cases hxv : c.below e x v <;> cases hvx : c.below e v x <;> cases hequal : c.equal e x v <;> simp_all

section Conditions

variable {c : Collation} {ρ : Row} {e : Fragment} (he : e.IsOperand True)
include he

/-- Two comparisons with a value of which one is known to be the other's negation. -/
theorem Row.xor_keeps_binary {sign sign' : Bytes} (opens : Opens (spaced sign) [Token.sign sign])
    (opens' : Opens (spaced sign') [Token.sign sign']) {v : Json} {b : Bool}
    (known : c.compare e.bound sign (ρ.value e.bound) v = some (.ofBool b))
    (known' : c.compare e.bound sign' (ρ.value e.bound) v = some (.ofBool !b)) :
    Xor ((Operator.binary e sign v).Keeps (ρ.atom c)) ((Operator.binary e sign' v).Keeps (ρ.atom c)) := by
  have aligned : e.Aligned := he.spells.tight trivial
  apply Fragment.xor_keeps (b := b)
  · rw [keeps_binary he opens known, and_iff_right aligned, Truth.ofBool_eq_true]
  · rw [keeps_binary he opens' known', and_iff_right aligned, Truth.ofBool_eq_true, Bool.not_eq_true']

theorem Row.xor_keeps_isNull :
    Xor ((e.add " IS NULL").Keeps (ρ.atom c)) ((e.add " IS NOT NULL").Keeps (ρ.atom c)) := by
  have aligned : e.Aligned := he.spells.tight trivial
  apply Fragment.xor_keeps (b := (ρ.value e.bound).isNull)
  · rw [keeps_isNull he, and_iff_right aligned]
  · rw [keeps_isNotNull he, and_iff_right aligned]

/-- A list without nulls, or none at all, which decides the filter outright. -/
theorem Row.xor_keeps_list {values : List Json} (present : (ρ.value e.bound).isNull = false)
    (each : ∀ v ∈ values, v.isNull = false) :
    Xor ((if values.isEmpty then Fragment.alwaysFalse else Operator.valueList e "IN" values).Keeps
        ((ρ.withLists c).atom c))
      ((if values.isEmpty then Fragment.alwaysTrue else Operator.valueList e "NOT IN" values).Keeps
        ((ρ.withLists c).atom c)) := by
  have aligned : e.Aligned := he.spells.tight trivial
  cases values with
  | nil =>
    exact Fragment.xor_keeps (b := false) (iff_of_false not_keeps_alwaysFalse Bool.noConfusion)
      (iff_of_true (.inr (truth?_alwaysTrue knowsConstants_atom)) rfl)
  | cons v values =>
    have among := Collation.among_of_present (c := c) (e := e.bound) present each
    apply Fragment.xor_keeps (b := (v :: values).any (c.equal e.bound (ρ.value e.bound)))
    · rw [List.isEmpty_cons, if_neg Bool.false_ne_true, keeps_isIn he, and_iff_right aligned, among, Truth.ofBool_eq_true]
    · rw [List.isEmpty_cons, if_neg Bool.false_ne_true, keeps_notIn he, and_iff_right aligned, among]
      cases (v :: values).any (c.equal e.bound (ρ.value e.bound)) <;> decide

/-- What two opposite operators make of a value that they decide by keeps a row once, if its value of the column is no
null or null is what they test for. -/
theorem Operator.exactly_one {op op' : Operator} (pair : op.opposite? = some op') {v : Json} (decides : op.Decides v)
    {d : Dialect} {field : Bytes} {f g : Fragment} (hf : op.apply e v d field = .ok f)
    (hg : op'.apply e v d field = .ok g)
    (orders : op = .gt ∨ op = .gte →
      c.Orders e.bound fun w => w.isNull = false ∧ w ∈ ρ.value e.bound :: f.params)
    (present : op = .isNull ∨ (ρ.value e.bound).isNull = false) :
    Xor (f.Keeps ((ρ.withLists c).atom c)) (g.Keeps ((ρ.withLists c).atom c)) := by
  have known {x : Json} (hx : x.isNull = false) (hv : v.isNull = false) (b : Bool) :
      some (if x.isNull || v.isNull then Truth.unknown else .ofBool b) = some (.ofBool b) := by
    rw [hx, hv]
    rfl
  cases op <;> cases pair
  case eq =>
    cases hf
    cases hg
    cases null : v.isNull with
    | true => exact Row.xor_keeps_isNull he
    | false =>
      have hx := present.resolve_left Operator.noConfusion
      exact Row.xor_keeps_binary he (opens_of_scan rfl) (opens_of_scan rfl) (known hx null _) (known hx null _)
  case gt =>
    cases hf
    cases hg
    have hx := present.resolve_left Operator.noConfusion
    have ordered := (orders (.inl rfl)).trichotomy ⟨hx, List.mem_cons_self⟩ ⟨decides, by simp [binary]⟩
    have atMost : c.compare e.bound "<=" (ρ.value e.bound) v
        = some (.ofBool !c.below e.bound v (ρ.value e.bound)) := by
      rw [← ordered.1]
      exact known hx decides _
    exact Row.xor_keeps_binary he (opens_of_scan rfl) (opens_of_scan rfl) (known hx decides _) atMost
  case gte =>
    cases hf
    cases hg
    have hx := present.resolve_left Operator.noConfusion
    have ordered := (orders (.inr rfl)).trichotomy ⟨hx, List.mem_cons_self⟩ ⟨decides, by simp [binary]⟩
    have less : c.compare e.bound "<" (ρ.value e.bound) v
        = some (.ofBool !(c.below e.bound v (ρ.value e.bound) || c.equal e.bound (ρ.value e.bound) v)) := by
      rw [ordered.2, Bool.not_not]
      exact known hx decides _
    exact Row.xor_keeps_binary he (opens_of_scan rfl) (opens_of_scan rfl) (known hx decides _) less
  case isIn =>
    obtain ⟨values, rfl, each⟩ := decides
    cases hf
    cases hg
    exact Row.xor_keeps_list he (present.resolve_left Operator.noConfusion) each
  case isNull =>
    cases hf
    cases hg
    exact Row.xor_keeps_isNull he

end Conditions

/-! ## Filters of a request -/

namespace Condition

variable {r : Resolver} {limits : Limits} {day : Day} {field : Bytes} {op : Operator} {value : Json} {f : Fragment}

/-- A filter that compiles to a condition is about a field. -/
theorem becomes_of_filled {c : Condition} (h : c.ofRequest r limits day = .ok f) (filled : f.isEmpty = false) :
    ∃ column, r.resolve c.field = some column ∧ c.Becomes r day column (c.boundValue .request limits column) f := by
  obtain ⟨-, rfl⟩ | ⟨column, found, -, becomes⟩ := ofRequest_eq_ok h
  · cases filled
  · exact ⟨column, found, becomes⟩

/-- Two filters of a request with opposite operators and the same value, both with a condition: a row that has a value
in the column is kept by just one of them, and for the tests for null any row is, unless the field takes the value for
a date preset. Then both filters are the range of the preset. -/
theorem exactly_one_iff {qualifier : Bytes} {t : Table} {d : Dialect} (hr : Resolver.ofTableAs qualifier t d = .ok r)
    (trusted : ∀ s ∈ t.expressionTexts, s.Closes True) {op' : Operator} (pair : op.opposite? = some op') {g : Fragment}
    (hf : ofRequest r limits day { field, op, value } = .ok f)
    (hg : ofRequest r limits day { field, op := op', value } = .ok g)
    (filled : f.isEmpty = false) (filled' : g.isEmpty = false) :
    ∃ column, r.resolve field = some column
      ∧ (∀ preset, r.preset? column value = some preset → f = preset.toSql day column.expression ∧ g = f)
      ∧ ∀ (c : Collation) (ρ : Row),
        (op = .gt ∨ op = .gte → c.Orders column.expression.bound fun w =>
          w.isNull = false ∧ w ∈ ρ.value column.expression.bound :: f.params) →
        (op = .isNull ∨ (ρ.value column.expression.bound).isNull = false) →
        (Xor (f.Keeps ((ρ.withLists c).atom c)) (g.Keeps ((ρ.withLists c).atom c))
          ↔ r.preset? column value = none) := by
  obtain ⟨column, found, becomes⟩ := becomes_of_filled hf filled
  obtain ⟨column', found', becomes'⟩ := becomes_of_filled hg filled'
  obtain rfl : column = column' := Option.some.inj (found.symm.trans found')
  refine ⟨column, found, ?_⟩
  cases becomes with
  | preset p named made =>
    cases becomes' with
    | comparison _ plain _ _ =>
      rw [named] at plain
      cases plain
    | preset q named' made' =>
      obtain rfl : p = q := Option.some.inj (named.symm.trans named')
      have same : g = f := made'.trans made.symm
      constructor
      · intro q named'
        obtain rfl : p = q := Option.some.inj (named.symm.trans named')
        exact ⟨made, same⟩
      · intro c ρ _ _
        rw [same, xor_self, named]
        exact iff_of_false id (Option.some_ne_none p)
  | comparison v plain ok applied =>
    cases becomes' with
    | preset q named _ =>
      rw [named] at plain
      cases plain
    | comparison w _ ok' applied' =>
      have operand : column.expression.IsOperand True := (Resolver.describes hr).isOperand_of_resolve trusted found
      obtain ⟨rfl, decides⟩ := Limits.checkValue_opposite pair ok ok'
      constructor
      · intro q named
        rw [named] at plain
        cases plain
      · intro c ρ orders present
        exact iff_of_true (Operator.exactly_one operand pair decides applied applied' orders present) plain

/-- Sales with their total and their day. -/
def sales : Table where
  name := "sales"
  base := "sales"
  columns := [{ name := "total", type := .number }, { name := "day", type := .date }]

/-- A sale of a given total. -/
def saleOf (total : Int) : Row := Row.withLists Keyset.byNumber ⟨fun _ => .int total, fun _ => .unknown⟩

/-- Of the filters for sales over 5 and of at most 5, just one keeps a sale of 7. -/
theorem exactly_one_iff_sales :
    ∃ r f g, Resolver.ofTableAs [] sales .sqlite = .ok r
      ∧ ofRequest r {} 0 { field := "total", op := .gt, value := .str "5" } = .ok f
      ∧ ofRequest r {} 0 { field := "total", op := .lte, value := .str "5" } = .ok g
      ∧ Xor (f.Keeps ((saleOf 7).atom Keyset.byNumber)) (g.Keeps ((saleOf 7).atom Keyset.byNumber)) := by
  refine ⟨_, _, _, rfl, rfl, rfl, ?_⟩
  obtain ⟨column, found, -, one⟩ := exactly_one_iff
    (rfl : Resolver.ofTableAs [] sales .sqlite = .ok _) (by nofun) (rfl : Operator.opposite? .gt = some .lte)
    (rfl : ofRequest _ {} 0 { field := "total", op := .gt, value := .str "5" } = .ok _)
    (rfl : ofRequest _ {} 0 { field := "total", op := .lte, value := .str "5" } = .ok _) rfl rfl
  cases found
  refine (one Keyset.byNumber ⟨fun _ => .int 7, fun _ => .unknown⟩ (fun _ => ?_) (.inr rfl)).mpr rfl
  apply Keyset.orders_byNumber
  rintro v ⟨-, mem : v ∈ [Json.int 7, Json.int 5]⟩
  obtain rfl | rfl : v = .int 7 ∨ v = .int 5 := by simpa using mem
  · exact ⟨7, rfl⟩
  · exact ⟨5, rfl⟩

/-- On the day of a sale, the tests for null are the same range of days. -/
example :
    (do
      let r ← Resolver.ofTable sales .sqlite
      let null ← ofRequest r {} 19858 { field := "day", op := .isNull, value := .str "today" }
      let notNull ← ofRequest r {} 19858 { field := "day", op := .isNotNull, value := .str "today" }
      return (null.debug, null.same notNull) : Checked (Bytes × Bool))
      = .ok ("\"sales\".\"day\" >= '2024-05-15T00:00:00.000Z' AND \"sales\".\"day\" < '2024-05-16T00:00:00.000Z'",
        true) := by
  rfl

end Condition

end TableQuery

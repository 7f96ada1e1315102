import TableQuery.Proofs.Checked
import TableQuery.Proofs.Sql.Alike
import TableQuery.Request.Value

/-!
# Checked values

A check makes of a value one that fits its column and its operator, and leaves such a value as it is. An operator needs
no more of its value than that, so what a check lets through compiles.

## What is proved

`Limits.checkValue_eq_self_iff`: the values that a check leaves as they are are those that fit.
`Limits.checked_compiles`: what a check gives fits, is left as it is by a second check, and compiles on every dialect
that has the operator.
-/

namespace TableQuery

namespace Limits

/-- A value is as the values of a column type are in a statement. -/
inductive Normal (limits : Limits) : ColumnType → Json → Prop
  | string {s : Bytes} (short : s.length ≤ limits.stringLength) : Normal limits .string (.str s)
  | int (n : Int) : Normal limits .number (.int n)
  | float (x : Binary64) : Normal limits .number (.float x)
  | bool (b : Bool) : Normal limits .boolean (.bool b)
  | date {s : Bytes} (shaped : Shape.isDate s = true) : Normal limits .date (.str s)
  | uuid {s : Bytes} (shaped : Shape.isUuid s = true) : Normal limits .uuid (.str s)
  | json {v : Json} (present : v.isNull = false) : Normal limits .json v

/-- A value is as an operator needs it on a column of a type. -/
def Fits (limits : Limits) (type : ColumnType) (op : Operator) (v : Json) : Prop :=
  match op with
  | .isNull | .isNotNull => v = .null
  | .isIn | .notIn | .between =>
    ∃ vs, v = .arr vs ∧ vs.length ≤ limits.arrayLength ∧ (op = .between → vs.length = 2) ∧ ∀ u ∈ vs, limits.Normal type u
  | .like | .ilike | .contains | .startsWith | .endsWith => limits.Normal .string v
  | .eq | .neq => v = .null ∨ limits.Normal type v
  | .gt | .gte | .lt | .lte => limits.Normal type v

variable {limits : Limits} {field : Bytes} {type : ColumnType} {op : Operator} {value v w : Json}

/-! ## Single values -/

theorem Normal.isNull (h : limits.Normal type v) : v.isNull = false := by
  cases h with
  | json present => exact present
  | _ => rfl

theorem normal_of_numberOfText? {s : Bytes} (h : numberOfText? s = some w) : limits.Normal .number w := by
  unfold numberOfText? at h
  split_ifs at h
  obtain ⟨x, -, h⟩ := Option.bind_eq_some_iff.mp h
  dsimp only at h
  split at h <;> cases h
  · exact .int _
  · exact .float _

theorem normal_of_checkText (h : limits.checkText v = .ok w) : limits.Normal .string w := by
  unfold checkText at h
  dsimp only at h
  split_ifs at h with long
  cases h
  exact .string (Nat.le_of_not_lt long)

/-- A value that neither is null nor nested becomes a normal one, and for a column of JSON it is one. -/
theorem normal_of_checkPlain (h : limits.checkPlain type v = .ok w) (present : v.isNull = false) :
    limits.Normal type w ∧ (type = .json → v = w) := by
  unfold checkPlain at h
  split at h
  · exact ⟨normal_of_checkText h, nofun⟩
  · cases h
    exact ⟨.int _, nofun⟩
  · cases h
    exact ⟨.float _, nofun⟩
  · split at h
    · next n number =>
      cases h
      exact ⟨normal_of_numberOfText? number, nofun⟩
    · cases h
  · cases h
  · split at h <;> cases h
    exact ⟨.bool _, nofun⟩
  · split_ifs at h with shaped
    cases h
    exact ⟨.date shaped, nofun⟩
  · cases h
  · split_ifs at h with shaped
    cases h
    exact ⟨.uuid shaped, nofun⟩
  · cases h
  · cases h
    exact ⟨.json present, fun _ => rfl⟩

/-- A checked value is normal, and for a column of JSON it is the value itself. -/
theorem normal_of_checkScalar (h : limits.checkScalar type v = .ok w) :
    limits.Normal type w ∧ (type = .json → v = w) := by
  unfold checkScalar at h
  split at h
  · cases h
  · split_ifs at h with json
    subst json
    cases h
    exact ⟨.json rfl, fun _ => rfl⟩
  · split_ifs at h with json
    subst json
    cases h
    exact ⟨.json rfl, fun _ => rfl⟩
  · next notNull _ _ =>
    refine normal_of_checkPlain h ?_
    cases v with
    | null => exact absurd rfl notNull
    | _ => rfl

/-- A normal value is left as it is. -/
theorem Normal.checkScalar (h : limits.Normal type v) : limits.checkScalar type v = .ok v := by
  cases h with
  | string short => exact if_neg (Nat.not_lt.mpr short)
  | int n => rfl
  | float x => rfl
  | bool b => rfl
  | date shaped => exact if_pos shaped
  | uuid shaped => exact if_pos shaped
  | json present =>
    cases v with
    | null => cases present
    | _ => rfl

theorem Normal.checkElement (h : limits.Normal type v) (field : Bytes) : limits.checkElement field type v = .ok v :=
  Checked.mapError_eq_ok.mpr h.checkScalar

/-! ## Values of operators -/

/-- A list is checked element by element, if it is not too long, and a range if it has two ends. -/
theorem checkArray_eq_ok : limits.checkArray field type op value = .ok v ↔
    ∃ vs ws, value = .arr vs ∧ v = .arr ws ∧ vs.mapM (limits.checkElement field type) = .ok ws
      ∧ vs.length ≤ limits.arrayLength ∧ (op = .between → vs.length = 2) := by
  unfold checkArray
  constructor
  · intro h
    obtain ⟨vs, array, h⟩ := Checked.bind_eq_ok.mp h
    split_ifs at h with pair long
    obtain ⟨ws, elements, h⟩ := Checked.bind_eq_ok.mp h
    cases h
    exact ⟨vs, ws, Operator.requireArray_eq_ok.mp array, rfl, elements, Nat.le_of_not_lt long,
      fun between => not_not.mp fun other => pair ⟨between, other⟩⟩
  · rintro ⟨vs, ws, rfl, rfl, elements, short, pair⟩
    refine Checked.bind_of_ok (Operator.requireArray_eq_ok.mpr rfl) ?_
    rw [if_neg fun other => other.2 (pair other.1), if_neg (Nat.not_lt.mpr short), elements]
    rfl

theorem forall₂_of_mapM_checkElement {vs ws : List Json} (h : vs.mapM (limits.checkElement field type) = .ok ws) :
    List.Forall₂ (fun a b => limits.checkScalar type a = .ok b) vs ws :=
  (Checked.mapM_eq_ok.mp h).imp fun _ _ => Checked.mapError_eq_ok.mp

/-- A checked value has the shape that the operator needs. -/
theorem fits_of_checkValue (h : limits.checkValue field type op value = .ok v) : limits.Fits type op v := by
  have single (h : limits.checkElement field type value = .ok v) : limits.Normal type v :=
    (normal_of_checkScalar (Checked.mapError_eq_ok.mp h)).1
  unfold checkValue at h
  cases op with
  | isNull | isNotNull =>
    cases h
    exact rfl
  | isIn | notIn | between =>
    obtain ⟨vs, ws, -, same, elements, short, pair⟩ := checkArray_eq_ok.mp h
    have each := forall₂_of_mapM_checkElement elements
    rw [each.length_eq] at short pair
    refine ⟨ws, same, short, pair, fun u mem => ?_⟩
    obtain ⟨a, -, checked⟩ := Checked.exists_of_forall₂ each.flip mem
    exact (normal_of_checkScalar checked).1
  | like | ilike | contains | startsWith | endsWith => exact (normal_of_checkScalar (Checked.mapError_eq_ok.mp h)).1
  | eq | neq =>
    dsimp only at h
    split_ifs at h
    · cases h
      exact .inl rfl
    · exact .inr (single h)
  | gt | gte | lt | lte =>
    dsimp only at h
    split_ifs at h
    exact single h

/-- What fits is left as it is. -/
theorem Fits.checkValue (h : limits.Fits type op v) (field : Bytes) : limits.checkValue field type op v = .ok v := by
  unfold Limits.checkValue
  cases op with
  | isNull | isNotNull =>
    cases h
    rfl
  | isIn | notIn | between =>
    obtain ⟨vs, rfl, short, pair, elements⟩ := h
    have same : vs.mapM (limits.checkElement field type) = .ok vs :=
      Checked.mapM_eq_ok.mpr (List.forall₂_same.mpr fun u mem => (elements u mem).checkElement field)
    exact checkArray_eq_ok.mpr ⟨vs, vs, rfl, rfl, same, short, pair⟩
  | like | ilike | contains | startsWith | endsWith => exact Checked.mapError_eq_ok.mpr (Normal.checkScalar h)
  | eq | neq =>
    rcases h with rfl | h
    · rfl
    · dsimp only
      rw [h.isNull, if_neg Bool.false_ne_true, h.checkElement]
  | gt | gte | lt | lte =>
    dsimp only
    rw [Normal.isNull h, if_neg Bool.false_ne_true, Normal.checkElement h]

/-- The values that a check leaves as they are are those that fit. -/
theorem checkValue_eq_self_iff : limits.checkValue field type op v = .ok v ↔ limits.Fits type op v :=
  ⟨fits_of_checkValue, fun h => h.checkValue field⟩

/-- What fits an operator compiles, unless the dialect lacks the operator. -/
theorem Fits.apply (h : limits.Fits type op v) (column : Fragment) (d : Dialect) (label : Bytes) :
    Checked.Succeeds (op.apply column v d label)
      ∨ op = .ilike ∧ d.supports .ilike = false
        ∧ op.apply column v d label = .error (.dialect Feature.ilike.name d.name) := by
  unfold Operator.apply
  cases op with
  | isIn | notIn =>
    obtain ⟨vs, rfl, -⟩ := h
    exact .inl (Checked.succeeds_ok _)
  | between =>
    obtain ⟨vs, rfl, -, pair, -⟩ := h
    obtain ⟨low, high, rfl⟩ := List.length_eq_two.mp (pair rfl)
    exact .inl (Checked.succeeds_ok _)
  | contains | startsWith | endsWith =>
    cases (h : limits.Normal .string v)
    exact .inl (Checked.succeeds_ok _)
  | ilike =>
    dsimp only
    unfold Dialect.require
    split_ifs with supported
    · exact .inl (Checked.succeeds_ok _)
    · exact .inr ⟨rfl, Bool.eq_false_iff.mpr supported, rfl⟩
  | _ => exact .inl (Checked.succeeds_ok _)

/-! ## Checked values compile -/

/-- What a check gives fits the operator, the values of a list being the checked ones in their order; a second check
leaves it as it is; and it compiles, unless the dialect lacks the operator. No value that fits is refused or changed. -/
theorem checked_compiles (limits : Limits) (field : Bytes) (type : ColumnType) (op : Operator) :
    (∀ value v, limits.checkValue field type op value = .ok v →
      limits.Fits type op v
        ∧ (op.takesArray = true → ∃ vs ws, value = .arr vs ∧ v = .arr ws
          ∧ List.Forall₂ (fun a b => limits.checkScalar type a = .ok b) vs ws)
        ∧ limits.checkValue field type op v = .ok v
        ∧ ∀ (column : Fragment) (d : Dialect) (label : Bytes), Checked.Succeeds (op.apply column v d label)
          ∨ op = .ilike ∧ d.supports .ilike = false
            ∧ op.apply column v d label = .error (.dialect Feature.ilike.name d.name))
      ∧ ∀ v, limits.checkValue field type op v = .ok v ↔ limits.Fits type op v := by
  refine ⟨fun value v h => ?_, fun _ => checkValue_eq_self_iff⟩
  have fits := fits_of_checkValue h
  refine ⟨fits, fun list => ?_, fits.checkValue field, fits.apply⟩
  cases op with
  | isIn | notIn | between =>
    obtain ⟨vs, ws, array, same, elements, -⟩ := checkArray_eq_ok.mp h
    exact ⟨vs, ws, array, same, forall₂_of_mapM_checkElement elements⟩
  | _ => cases list

/-- Two truth values that come as a text and as a number. -/
theorem checked_compiles_flags :
    Limits.checkValue {} "active" .boolean .isIn (.arr [.str "true", .int 0]) = .ok (.arr [.bool true, .bool false])
      ∧ Limits.checkValue {} "active" .boolean .isIn (.arr [.bool true, .bool false])
        = .ok (.arr [.bool true, .bool false])
      ∧ Limits.Fits {} .boolean .isIn (.arr [.bool true, .bool false]) := by
  have checked : Limits.checkValue {} "active" .boolean .isIn (.arr [.str "true", .int 0])
      = .ok (.arr [.bool true, .bool false]) := rfl
  obtain ⟨checks, kept⟩ := checked_compiles {} "active" .boolean .isIn
  obtain ⟨fits, -⟩ := checks _ _ checked
  exact ⟨checked, (kept _).mpr fits, fits⟩

end Limits

end TableQuery

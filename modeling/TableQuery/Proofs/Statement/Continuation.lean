import TableQuery.Proofs.Sql.Order
import TableQuery.Proofs.Statement.Keyset

/-!
# The rows after a boundary

The continuation of a page is an expansion over the keys of its order: a row comes after the boundary by the first
key on which they differ. Where a key is null at the boundary, or may be null in a row, the branch says what the
dialect's place for nulls asks for.

## What is proved

`Keyset.keeps_continuationAfter`: the continuation after the values of a row keeps exactly the rows that this row
precedes, for every number of keys, in every mix of directions, with or without nulls.
-/

namespace TableQuery

namespace Keyset

variable {d : Dialect} {c : Collation} {x : Row}

/-! ## One key -/

namespace Key

variable {k : Key}

section Kept

variable (he : k.term.expression.IsOperand True)
include he

theorem keeps_equal : k.equal.Keeps (x.atom c) ↔ k.term.same c (k.term.valueIn x) k.value = true := by
  have aligned : k.term.expression.Aligned := he.spells.tight trivial
  unfold equal OrderTerm.same OrderTerm.valueIn
  cases null : k.value.isNull with
  | true =>
    rw [if_pos rfl, Row.keeps_isNull he, and_iff_right aligned]
    cases (x.value k.term.expression.bound).isNull <;> simp
  | false =>
    have spaced : Opens (spaced "=") [Token.sign "="] := opens_of_scan rfl
    rw [if_neg Bool.false_ne_true, Row.keeps_binary he spaced rfl, and_iff_right aligned, null]
    cases (x.value k.term.expression.bound).isNull <;> simp

theorem keeps_beyond (present : k.value.isNull = false) :
    (Operator.binary k.term.expression (if k.term.direction == .desc then "<" else ">") k.value).Keeps (x.atom c)
      ↔ (k.term.valueIn x).isNull = false ∧ k.term.before d c k.value (k.term.valueIn x) = true := by
  have aligned : k.term.expression.Aligned := he.spells.tight trivial
  have below : Opens (spaced "<") [Token.sign "<"] := opens_of_scan rfl
  have above : Opens (spaced ">") [Token.sign ">"] := opens_of_scan rfl
  rw [OrderTerm.before_eq, present]
  unfold OrderTerm.valueIn
  cases k.term.direction with
  | asc =>
    show (Operator.binary k.term.expression ">" k.value).Keeps (x.atom c) ↔ _
    rw [Row.keeps_binary he above rfl, and_iff_right aligned, present]
    cases (x.value k.term.expression.bound).isNull <;> simp
  | desc =>
    show (Operator.binary k.term.expression "<" k.value).Keeps (x.atom c) ↔ _
    rw [Row.keeps_binary he below rfl, and_iff_right aligned, present]
    cases (x.value k.term.expression.bound).isNull <;> simp

/-- Where nulls come last, a later value or a null comes after a value. -/
theorem keeps_beyond_or_isNull (present : k.value.isNull = false)
    (last : d.nullsFirst (k.term.direction == .desc) = false) :
    (Fragment.any [Operator.binary k.term.expression (if k.term.direction == .desc then "<" else ">") k.value,
        k.term.expression.add " IS NULL"]).Keeps (x.atom c)
      ↔ k.term.before d c k.value (k.term.valueIn x) = true := by
  have aligned : k.term.expression.Aligned := he.spells.tight trivial
  have beyond := keeps_beyond (d := d) (c := c) (x := x) he present
  have test := Key.isTest_beyond he (k.term.direction == .desc)
  have isNull := Operator.isTest_isNull he
  generalize Operator.binary k.term.expression (if k.term.direction == .desc then "<" else ">") k.value
    = condition at beyond test ⊢
  have parts : ∀ g ∈ [condition, k.term.expression.add " IS NULL"], g.Reads True ∧ g.isEmpty = false :=
    List.forall_mem_cons.mpr ⟨⟨test.reads, test.filled⟩,
      List.forall_mem_singleton.mpr ⟨isNull.reads, isNull.filled⟩⟩
  rw [Fragment.keeps_any (fun g mem => (parts g mem).1) (fun g mem => (parts g mem).2) (List.cons_ne_nil _ _)]
  simp only [List.mem_cons, List.not_mem_nil, or_false, exists_eq_or_imp, exists_eq_left]
  rw [beyond, Row.keeps_isNull he, and_iff_right aligned]
  rw [OrderTerm.before_eq, present]
  unfold OrderTerm.valueIn
  cases (x.value k.term.expression.bound).isNull with
  | true => simp [last]
  | false => simp

/-- The condition of a later value keeps the rows whose value is later, nulls included; where the term is never
null the row's value is not. -/
theorem keeps_after {f : Fragment} (h : k.after? d = some f)
    (never : k.term.nullable = false → (k.term.valueIn x).isNull = false) :
    f.Keeps (x.atom c) ↔ k.term.before d c k.value (k.term.valueIn x) = true := by
  have aligned : k.term.expression.Aligned := he.spells.tight trivial
  unfold after? at h
  dsimp only at h
  cases null : k.value.isNull with
  | true =>
    rw [null, if_pos rfl] at h
    split_ifs at h with first
    cases h
    rw [Row.keeps_isNotNull he, and_iff_right aligned]
    rw [OrderTerm.before_eq, null, if_pos rfl, first, Bool.and_true, Bool.not_eq_true']
    rfl
  | false =>
    have beyond := keeps_beyond (d := d) (c := c) (x := x) he null
    have orNull := keeps_beyond_or_isNull (d := d) (c := c) (x := x) he null
    rw [null, if_neg Bool.false_ne_true] at h
    generalize Operator.binary k.term.expression (if k.term.direction == .desc then "<" else ">") k.value
      = condition at h beyond orNull
    split_ifs at h with mayBeNull
    · cases h
      simp only [Bool.and_eq_true, Bool.not_eq_true'] at mayBeNull
      exact orNull mayBeNull.2
    · cases h
      rw [beyond]
      constructor
      · exact And.right
      · -- A null is not taken for a later value: either the term has none, or nulls come first.
        intro before
        refine ⟨?_, before⟩
        cases nullable : k.term.nullable with
        | false => exact never nullable
        | true =>
          have first : d.nullsFirst (k.term.direction == .desc) = true := by
            simpa [nullable] using mayBeNull
          rw [Bool.eq_false_iff]
          intro isNull
          rw [OrderTerm.before_eq, null, isNull, first] at before
          cases before

end Kept

theorem before_eq_false (h : k.after? d = none) (v : Json) : k.term.before d c k.value v = false := by
  unfold after? at h
  dsimp only at h
  split_ifs at h with null last
  rw [OrderTerm.before_eq, null, if_pos rfl, Bool.eq_false_iff.mpr last, Bool.and_false]

end Key

/-! ## All keys -/

/-- Whether a row comes after the values of keys: by the first key on which it differs from them. -/
def follows (d : Dialect) (c : Collation) : List Key → Row → Bool
  | [], _ => false
  | k :: rest, x =>
    k.term.before d c k.value (k.term.valueIn x)
      || k.term.same c (k.term.valueIn x) k.value && follows d c rest x

/-- One branch keeps a row just if the row equals what the branches stand under, and comes after the keys. -/
theorem keeps_branches {equalities : List Fragment} {keys : List Key}
    (heq : ∀ e ∈ equalities, e.IsTest True) (hkeys : ∀ k ∈ keys, k.term.expression.IsOperand True)
    (never : ∀ k ∈ keys, k.term.nullable = false → (k.term.valueIn x).isNull = false) :
    (∃ b ∈ branches d equalities keys, b.Keeps (x.atom c))
      ↔ (∀ e ∈ equalities, e.Keeps (x.atom c)) ∧ follows d c keys x = true := by
  -- The branches of the other keys stand under one equality more.
  induction keys generalizing equalities with
  | nil => simp [branches, follows]
  | cons k rest ih =>
    rw [List.forall_mem_cons] at hkeys never
    have extended : ∀ e ∈ equalities ++ [k.equal], e.IsTest True := by
      rw [List.forall_mem_append, List.forall_mem_singleton]
      exact ⟨heq, Key.isTest_equal hkeys.1⟩
    have more := ih extended hkeys.2 never.2
    rw [List.forall_mem_append, List.forall_mem_singleton, Key.keeps_equal hkeys.1] at more
    unfold branches follows
    cases hafter : k.after? d with
    | none =>
      dsimp only
      rw [more, Key.before_eq_false hafter, Bool.false_or, Bool.and_eq_true, and_assoc]
    | some after =>
      have reads : ∀ e ∈ equalities ++ [after], e.Reads True := by
        rw [List.forall_mem_append, List.forall_mem_singleton]
        exact ⟨fun e mem => (heq e mem).reads, (Key.reads_after? hkeys.1 hafter).1⟩
      have first : (Fragment.all (equalities ++ [after])).Keeps (x.atom c) ↔
          (∀ e ∈ equalities, e.Keeps (x.atom c)) ∧ k.term.before d c k.value (k.term.valueIn x) = true := by
        rw [Fragment.keeps_all reads, List.forall_mem_append, List.forall_mem_singleton,
          Key.keeps_after hkeys.1 hafter never.1]
      dsimp only
      rw [List.exists_mem_cons_iff, first, more, Bool.or_eq_true, Bool.and_eq_true, and_assoc, ← and_or_left]

variable {order : List OrderTerm} {rows : List Row} {b : Row} {boundary : Json}

theorem keysOf_eq (values : ∀ t ∈ order, boundary.get? t.field = some (t.valueIn b)) :
    keysOf order boundary = order.map fun t => { term := t, value := t.valueIn b } := by
  unfold keysOf
  rw [← List.filterMap_eq_map]
  refine List.filterMap_congr fun t mem => ?_
  rw [values t mem]
  rfl

/-- To come after the values of a row is to be preceded by the row. -/
theorem follows_eq_precedes (h : Ordered c order rows) (hb : b ∈ rows) (hx : x ∈ rows) :
    follows d c (order.map fun t => { term := t, value := t.valueIn b }) x = precedes d c order b x := by
  induction order with
  | nil => rfl
  | cons t rest ih =>
    have symm : t.same c (t.valueIn x) (t.valueIn b) = t.same c (t.valueIn b) (t.valueIn x) := by
      rw [Bool.eq_iff_iff, h.same_iff (d := d) hx hb, h.same_iff (d := d) hb hx, and_comm]
    rw [List.map_cons]
    unfold follows precedes
    rw [symm, ih h.tail]

/-- The continuation after a row's values keeps the rows that the row precedes. -/
theorem keeps_continuationAfter (h : Ordered c order rows) (hb : b ∈ rows) (hx : x ∈ rows)
    (operands : ∀ t ∈ order, t.expression.IsOperand True)
    (never : ∀ t ∈ order, t.nullable = false → (t.valueIn x).isNull = false) (keyed : order ≠ [])
    (values : ∀ t ∈ order, boundary.get? t.field = some (t.valueIn b)) :
    (continuationAfter d order boundary).Keeps (x.atom c) ↔ precedes d c order b x = true := by
  have keys := keysOf_eq values
  have hkeys : ∀ k ∈ keysOf order boundary, k.term.expression.IsOperand True :=
    fun k mem => operands k.term (mem_keysOf mem).1
  have meaning := keeps_branches (d := d) (c := c) (x := x) (List.forall_mem_nil _) hkeys
    fun k mem => never k.term (mem_keysOf mem).1
  have reads := reads_branches (d := d) (List.forall_mem_nil _) hkeys
  rw [and_iff_right (List.forall_mem_nil _), keys, follows_eq_precedes h hb hx] at meaning
  rw [← meaning]
  unfold continuationAfter
  rw [keys] at reads ⊢
  dsimp only
  rw [if_neg (by simpa using keyed)]
  cases parts : branches d [] (order.map fun t => { term := t, value := t.valueIn b }) with
  | nil =>
    dsimp only
    simp only [List.not_mem_nil, false_and, exists_false, iff_false]
    exact Row.not_keeps_alwaysFalse
  | cons first rest =>
    rw [parts] at reads
    exact Fragment.keeps_any (fun g mem => (reads g mem).1) (fun g mem => (reads g mem).2)
      (List.cons_ne_nil _ _)

end Keyset

end TableQuery

import TableQuery.Proofs.Sql.Row
import TableQuery.Sql.Order

/-!
# The order of rows

What `ORDER BY` makes of rows: the terms decide one after the other, each in its direction. A database takes nulls to be
below all values or above all of them (`Dialect.nullPlace`), so a descending order has them at the other end. Where the
values of each term are totally ordered by the database, so are the rows, up to rows that agree on all terms.

## What is proved

`OrderTerm.before_eq`: nulls come first where the statements take them to. `ranks_precedes`: the terms rank the rows.
`pairwise_arrange`: rows that do not agree are arranged strictly, and `arrange_eq`: there is one way to do it.
-/

namespace TableQuery

/-! ## Rankings -/

/-- What comes before what, among some values: never both ways, and whatever is compared with two of which one
comes before the other stands after the one or before the other. -/
structure Ranks {α : Type} (S : α → Prop) (before : α → α → Bool) : Prop where
  asymm : ∀ x y, S x → S y → before x y = true → before y x = false
  split : ∀ x y z, S x → S y → S z → before x z = true → before x y = true ∨ before y z = true

namespace Ranks

variable {α β : Type} {S : α → Prop} {first same second : α → α → Bool} {x y z : α}

theorem irrefl (h : Ranks S first) (hx : S x) : first x x = false := by
  cases self : first x x with
  | false => rfl
  | true =>
    rw [h.asymm x x hx hx self] at self
    exact self.symm

/-- What does not come before a value does not come before one that this does not come before either. -/
theorem not_before (h : Ranks S first) (hx : S x) (hy : S y) (hz : S z) (hxy : first x y = false)
    (hyz : first y z = false) : first x z = false := by
  rw [Bool.eq_false_iff]
  intro before
  rcases h.split x y z hx hy hz before with less | more
  · rw [hxy] at less
    cases less
  · rw [hyz] at more
    cases more

theorem comap (h : Ranks S first) (f : β → α) : Ranks (fun b => S (f b)) fun a b => first (f a) (f b) :=
  ⟨fun x y hx hy => h.asymm (f x) (f y) hx hy, fun x y z hx hy hz => h.split (f x) (f y) (f z) hx hy hz⟩

theorem flip (h : Ranks S first) : Ranks S fun x y => first y x :=
  ⟨fun x y hx hy => h.asymm y x hy hx, fun x y z hx hy hz before => (h.split z y x hz hy hx before).symm⟩

theorem mono {T : α → Prop} (h : Ranks S first) (sub : ∀ x, T x → S x) : Ranks T first :=
  ⟨fun x y hx hy => h.asymm x y (sub x hx) (sub y hy),
    fun x y z hx hy hz => h.split x y z (sub x hx) (sub y hy) (sub z hz)⟩

/-- A second ranking decides between those that the first one leaves together. -/
theorem andThen (h : Ranks S first) (h' : Ranks S second)
    (together : ∀ x y, S x → S y → (same x y = true ↔ first x y = false ∧ first y x = false)) :
    Ranks S fun x y => first x y || same x y && second x y := by
  constructor
  · intro x y hx hy before
    simp only [Bool.or_eq_true, Bool.and_eq_true] at before
    simp only [Bool.or_eq_false_iff, Bool.and_eq_false_iff]
    rcases before with before | ⟨tied, before⟩
    · refine ⟨h.asymm x y hx hy before, Or.inl ?_⟩
      rw [Bool.eq_false_iff]
      intro tied
      rw [((together y x hy hx).mp tied).2] at before
      cases before
    · exact ⟨((together x y hx hy).mp tied).2, Or.inr (h'.asymm x y hx hy before)⟩
  · intro x y z hx hy hz before
    simp only [Bool.or_eq_true, Bool.and_eq_true] at before ⊢
    rcases before with before | ⟨tied, before⟩
    · rcases h.split x y z hx hy hz before with hxy | hyz
      · exact Or.inl (Or.inl hxy)
      · exact Or.inr (Or.inl hyz)
    · obtain ⟨hxz, hzx⟩ := (together x z hx hz).mp tied
      cases hxy : first x y with
      | true => exact Or.inl (Or.inl rfl)
      | false =>
        cases hyz : first y z with
        | true => exact Or.inr (Or.inl rfl)
        | false =>
          -- The first ranking leaves all three together, so the second one decides.
          have hyx : first y x = false := h.not_before hy hz hx hyz hzx
          have hzy : first z y = false := h.not_before hz hx hy hzx hxy
          rcases h'.split x y z hx hy hz before with less | more
          · exact Or.inl (Or.inr ⟨(together x y hx hy).mpr ⟨hxy, hyx⟩, less⟩)
          · exact Or.inr (Or.inr ⟨(together y z hy hz).mpr ⟨hyz, hzy⟩, more⟩)

end Ranks

/-! ## One term -/

/-- The database orders values totally: one of two comes below the other, or they are equal. -/
structure Collation.Orders (c : Collation) (e : List Token) (S : Json → Prop) : Prop where
  asymm : ∀ v w, S v → S w → c.below e v w = true → c.below e w v = false
  trans : ∀ v w x, S v → S w → S x → c.below e v w = true → c.below e w x = true → c.below e v x = true
  equal_iff : ∀ v w, S v → S w → (c.equal e v w = true ↔ c.below e v w = false ∧ c.below e w v = false)
  equal_trans : ∀ v w x, S v → S w → S x → c.equal e v w = true → c.equal e w x = true → c.equal e v x = true

theorem Collation.Orders.ranks {c : Collation} {e : List Token} {S : Json → Prop} (h : c.Orders e S) :
    Ranks S (c.below e) := by
  refine ⟨h.asymm, fun v w x hv hw hx below => ?_⟩
  by_contra neither
  simp only [not_or, Bool.not_eq_true] at neither
  obtain ⟨hvw, hwx⟩ := neither
  have hwv : c.below e w v = false := by
    rw [Bool.eq_false_iff]
    intro back
    rw [h.trans w v x hw hv hx back below] at hwx
    cases hwx
  have hxw : c.below e x w = false := by
    rw [Bool.eq_false_iff]
    intro back
    rw [h.trans v x w hv hx hw below back] at hvw
    cases hvw
  have equal := h.equal_trans v w x hv hw hx ((h.equal_iff v w hv hw).mpr ⟨hvw, hwv⟩)
    ((h.equal_iff w x hw hx).mpr ⟨hwx, hxw⟩)
  rw [((h.equal_iff v x hv hx).mp equal).1] at below
  cases below

/-- Where nulls stand among values in ascending order. -/
inductive NullPlace where
  | lowest
  | highest
deriving Repr, DecidableEq

/-- MySQL and SQLite have nulls below every value, PostgreSQL has them above, and so is an unknown database taken to. -/
def Dialect.nullPlace : Dialect → NullPlace
  | mysql => .lowest
  | sqlite => .lowest
  | postgresql => .highest
  | unknown => .highest

namespace OrderTerm

variable (d : Dialect) (c : Collation) (t : OrderTerm)

/-- What a row makes of a term. -/
def valueIn (ρ : Row) : Json := ρ.value t.expression.bound

/-- Whether one value comes before another when a term's values ascend. -/
def ascends (v w : Json) : Bool :=
  match v.isNull, w.isNull with
  | true, true => false
  | true, false => d.nullPlace == .lowest
  | false, true => d.nullPlace == .highest
  | false, false => c.below t.expression.bound v w

/-- Whether one value comes before another on a term: a descending order is the ascending one from its end. -/
def before (v w : Json) : Bool :=
  match t.direction with
  | .asc => t.ascends d c v w
  | .desc => t.ascends d c w v

/-- Whether two values are the same on a term; nulls are. -/
def same (v w : Json) : Bool :=
  if v.isNull then w.isNull else !w.isNull && c.equal t.expression.bound v w

variable {d c t} {S : Json → Prop} {v w : Json}

/-- Nulls come first in a direction just where a dialect says so, and values go by the direction. -/
theorem before_eq : t.before d c v w =
    if v.isNull then !w.isNull && d.nullsFirst (t.direction == .desc)
    else if w.isNull then !d.nullsFirst (t.direction == .desc)
    else match t.direction with
      | .asc => c.below t.expression.bound v w
      | .desc => c.below t.expression.bound w v := by
  unfold before ascends
  cases t.direction <;> cases v.isNull <;> cases w.isNull <;> cases d <;> rfl

theorem same_iff (h : c.Orders t.expression.bound fun v => S v ∧ v.isNull = false) (hv : S v)
    (hw : S w) : t.same c v w = true ↔ t.before d c v w = false ∧ t.before d c w v = false := by
  rw [before_eq, before_eq]
  unfold same
  cases nullV : v.isNull with
  | true => cases w.isNull <;> simp
  | false =>
    cases nullW : w.isNull with
    | true => cases d.nullsFirst (t.direction == .desc) <;> simp
    | false =>
      have equal := h.equal_iff v w ⟨hv, nullV⟩ ⟨hw, nullW⟩
      cases t.direction with
      | asc => simpa using equal
      | desc => simpa [and_comm] using equal

theorem ranks_ascends (h : c.Orders t.expression.bound fun v => S v ∧ v.isNull = false) :
    Ranks S (t.ascends d c) := by
  have ranks := h.ranks
  unfold ascends
  constructor
  · intro v w hv hw
    cases nullV : v.isNull with
    | true => cases w.isNull <;> cases d.nullPlace <;> simp
    | false =>
      cases nullW : w.isNull with
      | true => cases d.nullPlace <;> simp
      | false => exact ranks.asymm v w ⟨hv, nullV⟩ ⟨hw, nullW⟩
  · intro v w x hv hw hx
    cases nullV : v.isNull with
    | true => cases w.isNull <;> cases x.isNull <;> cases d.nullPlace <;> simp
    | false =>
      cases nullW : w.isNull with
      | true => cases x.isNull <;> cases d.nullPlace <;> simp
      | false =>
        cases nullX : x.isNull with
        | true => cases d.nullPlace <;> simp
        | false => exact ranks.split v w x ⟨hv, nullV⟩ ⟨hw, nullW⟩ ⟨hx, nullX⟩

theorem ranks_before (h : c.Orders t.expression.bound fun v => S v ∧ v.isNull = false) :
    Ranks S (t.before d c) := by
  have ranks := ranks_ascends (d := d) h
  unfold before
  cases t.direction with
  | asc => exact ranks
  | desc => exact ranks.flip

end OrderTerm

/-! ## All terms -/

section Terms

variable (d : Dialect) (c : Collation)

/-- Whether one row comes before another: the first term that does not have them the same decides. -/
def precedes : List OrderTerm → Row → Row → Bool
  | [], _, _ => false
  | t :: rest, x, y =>
    t.before d c (t.valueIn x) (t.valueIn y)
      || t.same c (t.valueIn x) (t.valueIn y) && precedes rest x y

/-- Whether two rows are the same on all terms. -/
def agree (order : List OrderTerm) (x y : Row) : Bool :=
  order.all fun t => t.same c (t.valueIn x) (t.valueIn y)

/-- One of two rows comes before the other. -/
def Apart (order : List OrderTerm) (x y : Row) : Prop :=
  precedes d c order x y = true ∨ precedes d c order y x = true

instance (order : List OrderTerm) : Std.Symm (Apart d c order) := ⟨fun _ _ => Or.symm⟩

/-- Rows in an order. -/
def arrange (order : List OrderTerm) (rows : List Row) : List Row :=
  rows.mergeSort fun x y => !precedes d c order y x

/-- Each term's values in some rows, as far as they are not null, are ordered by the database. -/
def Ordered (order : List OrderTerm) (rows : List Row) : Prop :=
  ∀ t ∈ order, c.Orders t.expression.bound fun v => (∃ ρ ∈ rows, t.valueIn ρ = v) ∧ v.isNull = false

variable {d c} {order : List OrderTerm} {rows : List Row}

theorem Ordered.tail {t : OrderTerm} (h : Ordered c (t :: order) rows) : Ordered c order rows :=
  fun u mem => h u (List.mem_cons_of_mem t mem)

theorem Ordered.same_iff {t : OrderTerm} {x y : Row} (h : Ordered c (t :: order) rows) (hx : x ∈ rows)
    (hy : y ∈ rows) : t.same c (t.valueIn x) (t.valueIn y) = true
      ↔ t.before d c (t.valueIn x) (t.valueIn y) = false ∧ t.before d c (t.valueIn y) (t.valueIn x) = false :=
  OrderTerm.same_iff (h t List.mem_cons_self) ⟨x, hx, rfl⟩ ⟨y, hy, rfl⟩

theorem ranks_precedes (h : Ordered c order rows) : Ranks (· ∈ rows) (precedes d c order) := by
  induction order with
  | nil =>
    constructor
    · intro x y _ _ before
      cases before
    · intro x y z _ _ _ before
      cases before
  | cons t rest ih =>
    have values := OrderTerm.ranks_before (d := d) (h t List.mem_cons_self)
    have first := (values.comap t.valueIn).mono fun ρ mem => ⟨ρ, mem, rfl⟩
    exact first.andThen (ih h.tail) fun x y hx hy => h.same_iff hx hy

/-- Rows that are not the same on all terms come one before the other. -/
theorem apart_of_differ (h : Ordered c order rows) {x y : Row} (hx : x ∈ rows) (hy : y ∈ rows)
    (differ : agree c order x y = false) : Apart d c order x y := by
  induction order with
  | nil => cases differ
  | cons t rest ih =>
    have there := h.same_iff (d := d) hx hy
    have back := h.same_iff (d := d) hy hx
    unfold Apart precedes
    simp only [Bool.or_eq_true, Bool.and_eq_true]
    cases less : t.before d c (t.valueIn x) (t.valueIn y) with
    | true => exact Or.inl (Or.inl rfl)
    | false =>
      cases more : t.before d c (t.valueIn y) (t.valueIn x) with
      | true => exact Or.inr (Or.inl rfl)
      | false =>
        have same := there.mpr ⟨less, more⟩
        have rest' : agree c rest x y = false := by
          unfold agree at differ
          rw [List.all_cons, same, Bool.true_and] at differ
          exact differ
        rcases ih h.tail rest' with first | second
        · exact Or.inl (Or.inr ⟨same, first⟩)
        · exact Or.inr (Or.inr ⟨back.mpr ⟨more, less⟩, second⟩)

/-! ## Arranging rows -/

theorem perm_arrange (d : Dialect) (c : Collation) (order : List OrderTerm) (rows : List Row) :
    (arrange d c order rows).Perm rows :=
  List.mergeSort_perm rows _

/-- Whatever rows are arranged, none stands after one that it precedes. -/
theorem pairwise_arrange (h : Ordered c order rows) {found : List Row} (sub : ∀ ρ ∈ found, ρ ∈ rows) :
    (arrange d c order found).Pairwise fun x y => precedes d c order y x = false := by
  have ranks := ranks_precedes (d := d) h
  -- Only the rows are known to be ranked, so it is they that are sorted, each with its membership.
  let le (x y : { ρ // ρ ∈ rows }) : Bool := !precedes d c order y.1 x.1
  have total (x y : { ρ // ρ ∈ rows }) : le x y || le y x := by
    simp only [le, Bool.or_eq_true, Bool.not_eq_eq_eq_not, Bool.not_true]
    cases less : precedes d c order y.1 x.1 with
    | false => exact Or.inl rfl
    | true => exact Or.inr (ranks.asymm y.1 x.1 y.2 x.2 less)
  have trans (x y z : { ρ // ρ ∈ rows }) (hxy : le x y) (hyz : le y z) : le x z := by
    simp only [le, Bool.not_eq_eq_eq_not, Bool.not_true] at hxy hyz ⊢
    exact ranks.not_before z.2 y.2 x.2 hyz hxy
  have sorted := List.pairwise_mergeSort trans total (found.attachWith (· ∈ rows) sub)
  have same : ((found.attachWith (· ∈ rows) sub).mergeSort le).map Subtype.val = arrange d c order found := by
    have mapped := List.map_mergeSort (r := le) (s := fun x y => !precedes d c order y x) (f := Subtype.val)
      (l := found.attachWith (· ∈ rows) sub) fun _ _ _ _ => rfl
    rw [mapped, List.attachWith_map_subtype_val]
    rfl
  rw [← same, List.pairwise_map]
  exact sorted.imp fun hle => by simpa [le] using hle

/-- Rows of which each two come one before the other are arranged in one way only. -/
theorem arrange_eq (h : Ordered c order rows) {found sorted : List Row} (perm : found.Perm sorted)
    (sub : ∀ ρ ∈ sorted, ρ ∈ rows) (strict : sorted.Pairwise fun x y => precedes d c order x y = true) :
    arrange d c order found = sorted := by
  have ranks := ranks_precedes (d := d) h
  have apart : sorted.Pairwise (Apart d c order) := strict.imp Or.inl
  have perm' := (perm_arrange d c order found).trans perm
  refine List.Perm.eq_of_pairwise ?_ (pairwise_arrange h fun ρ mem => sub ρ (perm.subset mem)) ?_ perm'
  · intro x y hx hy hyx hxy
    by_contra ne
    rcases apart.forall (perm'.subset hx) hy ne with first | second
    · rw [hxy] at first
      cases first
    · rw [hyx] at second
      cases second
  · exact strict.imp_of_mem fun hx hy before => ranks.asymm _ _ (sub _ hx) (sub _ hy) before

/-- Rows no two of which agree are arranged strictly. -/
theorem strict_arrange (h : Ordered c order rows)
    (differ : rows.Pairwise fun x y => agree c order x y = false) :
    (arrange d c order rows).Pairwise fun x y => precedes d c order x y = true := by
  have apart : rows.Pairwise (Apart d c order) :=
    differ.imp_of_mem fun hx hy differ => apart_of_differ h hx hy differ
  have arranged := (perm_arrange d c order rows).pairwise_iff Or.symm |>.mpr apart
  have none := pairwise_arrange (d := d) h fun ρ mem => mem
  refine (arranged.and none).imp fun both => both.1.resolve_right ?_
  rw [both.2]
  exact Bool.false_ne_true

end Terms

end TableQuery

import TableQuery.Proofs.Field.Shadow
import TableQuery.Proofs.Statement.Keyset

/-!
# The fields of a cursor's order

An order is asked to have the fields of its sort keys, and the field that identifies rows. Of the fields of one
name it keeps the first. A name may stand for two fields, a column of the base table and the column of a join that
it shadows, and then the second of them is left out although no other term sorts by it. Left out like this, the
field that identifies rows does not, and rows that agree on the others are skipped between pages.

## What is proved

`Keyset.activeOrder_expression_iff`: the expression of a field that was asked for is in the order unless the
field is displaced (`Keyset.Displaced`), and then it is not.
-/

namespace TableQuery

namespace Keyset

open Resolver (find?)

/-! ## The fields that are asked for -/

/-- The keys of an order: the requested ones, or the description's own. -/
def sortKeys (r : Resolver) (requested : List SortKey) : List SortKey :=
  if requested.isEmpty then r.table.defaultSort else requested

/-- The fields that an order is asked to have. -/
def asked (r : Resolver) (requested : List SortKey) : List Field :=
  ((sortKeys r requested).filterMap fun key => r.resolve key.field) ++ (cursorField? r).toList

/-- An earlier field takes the name of the field, one of the two being shadowed by the other, and none of the
fields that come first of their names has its expression. -/
structure Displaced (r : Resolver) (fields : List Field) (f : Field) : Prop where
  taken : ∃ g, find? f.name fields = some g ∧ (r.Shadows f g ∨ r.Shadows g f)
  lost : ∀ g, find? g.name fields = some g → g.expression ≠ f.expression

/-! ## What an order keeps -/

/-- A term sorts by a field. -/
def SortsBy (t : OrderTerm) (f : Field) : Prop := t.field = f.name ∧ t.expression = f.expression

/-- Keeps a field whose name is new. -/
def keepFirst (kept : List Field) (f : Field) : List Field :=
  if kept.any fun k => k.name == f.name then kept else kept ++ [f]

variable {terms : List OrderTerm} {fields kept : List Field} {f key : Field}

theorem any_field_eq (h : List.Forall₂ SortsBy terms fields) (name : Bytes) :
    (terms.any fun t => t.field == name) = fields.any fun f => f.name == name := by
  induction h with
  | nil => rfl
  | cons head _ ih => rw [List.any_cons, List.any_cons, head.1, ih]

theorem sortsBy_dedupe (h : List.Forall₂ SortsBy terms fields) :
    List.Forall₂ SortsBy (dedupe terms) (fields.foldl keepFirst []) := by
  have general {before : List OrderTerm} {kept : List Field} (start : List.Forall₂ SortsBy before kept) :
      List.Forall₂ SortsBy
        (terms.foldl (fun kept t => if kept.any fun k => k.field == t.field then kept else kept ++ [t]) before)
        (fields.foldl keepFirst kept) := by
    induction h generalizing before kept with
    | nil => exact start
    | @cons t f _ _ head _ ih =>
      rw [List.foldl_cons, List.foldl_cons]
      apply ih
      unfold keepFirst
      rw [any_field_eq start, head.1]
      split_ifs
      · exact start
      · exact List.rel_append start (List.Forall₂.cons head .nil)
  exact general .nil

theorem sortsBy_markPresent (h : List.Forall₂ SortsBy terms fields) (name : Bytes) :
    List.Forall₂ SortsBy (markPresent name terms) fields := by
  induction h with
  | nil => exact .nil
  | cons head tail ih =>
    unfold markPresent
    split_ifs
    · exact .cons head tail
    · exact .cons head ih

theorem sortsBy_endWith (h : List.Forall₂ SortsBy terms fields) :
    List.Forall₂ SortsBy (endWith key terms) (keepFirst fields key) := by
  unfold endWith keepFirst
  rw [any_field_eq h]
  split_ifs
  · exact sortsBy_markPresent h key.name
  · exact List.rel_append h (.cons ⟨rfl, rfl⟩ .nil)

/-- What is kept is what was kept, and the first of each new name. -/
theorem mem_foldl_keepFirst :
    f ∈ fields.foldl keepFirst kept ↔
      f ∈ kept ∨ (∀ k ∈ kept, k.name ≠ f.name) ∧ find? f.name fields = some f := by
  induction fields generalizing kept with
  | nil => simp [find?]
  | cons g rest ih =>
    rw [List.foldl_cons, ih]
    unfold keepFirst find?
    rw [List.find?_cons]
    by_cases same : g.name = f.name
    · rw [same, beq_self_eq_true]
      dsimp only
      split_ifs with taken
      · simp only [List.any_eq_true, beq_iff_eq] at taken
        obtain ⟨k, hk, named⟩ := taken
        have clash : ¬∀ k ∈ kept, k.name ≠ f.name := fun free => free k hk named
        simp only [clash, false_and]
      · simp only [List.any_eq_true, beq_iff_eq, not_exists, not_and] at taken
        have clash : ¬∀ k ∈ kept ++ [g], k.name ≠ f.name := by
          intro free
          exact free g (List.mem_append_right _ (List.mem_singleton_self g)) same
        have free : ∀ k ∈ kept, k.name ≠ f.name := taken
        simp only [clash, false_and, or_false]
        rw [List.mem_append, List.mem_singleton, and_iff_right free, Option.some_inj, eq_comm]
    · have other : (g.name == f.name) = false := beq_eq_false_iff_ne.mpr same
      have ne : f ≠ g := fun eq => same (congrArg Field.name eq).symm
      rw [other]
      split_ifs
      · rfl
      · rw [List.forall_mem_append, List.forall_mem_singleton, List.mem_append, List.mem_singleton]
        simp only [ne, same, or_false, ne_eq, not_false_eq_true, and_true]

theorem sortsBy_strictOrder {r : Resolver} {requested : List SortKey} (h : r.strictOrder requested = .ok terms) :
    List.Forall₂ SortsBy terms ((sortKeys r requested).filterMap fun key => r.resolve key.field) := by
  have steps : List.Forall₂ (fun key t => r.strictTerm key = .ok t) (sortKeys r requested) terms :=
    Checked.mapM_eq_ok.mp h
  generalize sortKeys r requested = keys at steps ⊢
  clear h
  induction steps with
  | nil => exact .nil
  | cons step _ ih =>
    obtain ⟨f, found, -, -, rfl⟩ := strictTerm_eq_ok step
    rw [List.filterMap_cons, found]
    exact .cons ⟨rfl, rfl⟩ ih

/-- The terms of an order sort by the fields that are asked for, the first of each name. -/
theorem sortsBy_activeOrder {r : Resolver} {requested : List SortKey} {order : List OrderTerm}
    (h : activeOrder r requested = .ok order) :
    List.Forall₂ SortsBy order ((asked r requested).foldl keepFirst []) := by
  obtain ⟨terms, hterms, rfl⟩ := activeOrder_eq_ok h
  have keys := sortsBy_dedupe (sortsBy_strictOrder hterms)
  unfold asked
  rw [List.foldl_append]
  cases cursorField? r with
  | none => exact keys
  | some key => exact sortsBy_endWith keys

variable {r : Resolver} {qualifier : Bytes} {t : Table} {d : Dialect} {requested : List SortKey}
  {order : List OrderTerm}

theorem exists_expression_iff (h : activeOrder r requested = .ok order) (expression : Fragment) :
    (∃ term ∈ order, term.expression = expression)
      ↔ ∃ g, find? g.name (asked r requested) = some g ∧ g.expression = expression := by
  have sorted := sortsBy_activeOrder h
  have kept (g : Field) : g ∈ (asked r requested).foldl keepFirst [] ↔
      find? g.name (asked r requested) = some g := by
    rw [mem_foldl_keepFirst]
    simp only [List.not_mem_nil, false_or, false_implies, implies_true, true_and]
  constructor
  · rintro ⟨term, mem, rfl⟩
    obtain ⟨g, hg, sorts⟩ := Checked.exists_of_forall₂ sorted mem
    exact ⟨g, (kept g).mp hg, sorts.2.symm⟩
  · rintro ⟨g, first, rfl⟩
    obtain ⟨term, mem, sorts⟩ := Checked.exists_of_forall₂ sorted.flip ((kept g).mpr first)
    exact ⟨term, mem, sorts.2⟩

theorem resolve_of_mem_asked (mem : f ∈ asked r requested) : ∃ name, r.resolve name = some f := by
  rcases List.mem_append.mp mem with mem | mem
  · obtain ⟨key, -, found⟩ := List.mem_filterMap.mp mem
    exact ⟨key.field, found⟩
  · exact ⟨_, resolve_of_cursorField? (Option.mem_toList.mp mem)⟩

/-- The expression of a field that is asked for is in the order, unless the field is displaced. -/
theorem exists_expression_of_mem_asked (hr : r.Describes qualifier t d)
    (h : activeOrder r requested = .ok order) (mem : f ∈ asked r requested) :
    (∃ term ∈ order, term.expression = f.expression) ↔ ¬Displaced r (asked r requested) f := by
  rw [exists_expression_iff h]
  constructor
  · rintro ⟨g, first, same⟩ displaced
    exact displaced.lost g first same
  · intro placed
    by_contra lost
    apply placed
    obtain ⟨g, first⟩ : ∃ g, find? f.name (asked r requested) = some g := by
      cases found : find? f.name (asked r requested) with
      | some g => exact ⟨g, rfl⟩
      | none => exact absurd rfl (Resolver.find?_eq_none.mp found f mem)
    have lost' : ∀ g, find? g.name (asked r requested) = some g → g.expression ≠ f.expression :=
      fun g first same => lost ⟨g, first, same⟩
    obtain ⟨hg, named⟩ := Resolver.find?_eq_some first
    obtain ⟨m, resolved⟩ := resolve_of_mem_asked mem
    obtain ⟨n, resolved'⟩ := resolve_of_mem_asked hg
    refine ⟨⟨g, first, ?_⟩, lost'⟩
    rcases hr.eq_or_shadows resolved resolved' named.symm with rfl | shadows
    · exact absurd rfl (lost' f first)
    · exact shadows

/-- What an order sorts by. Each key that is asked for, and the field that identifies rows where that can be
sorted by and shown, has its expression in the order exactly if it is not displaced. -/
theorem activeOrder_expression_iff (hr : Resolver.ofTableAs qualifier t d = .ok r)
    (h : activeOrder r requested = .ok order) :
    (∀ key ∈ sortKeys r requested, ∃ f, r.resolve key.field = some f
      ∧ ((∃ term ∈ order, term.expression = f.expression) ↔ ¬Displaced r (asked r requested) f))
    ∧ ∀ f, cursorField? r = some f →
      ((∃ term ∈ order, term.expression = f.expression) ↔ ¬Displaced r (asked r requested) f) := by
  have described := Resolver.describes hr
  constructor
  · intro key mem
    obtain ⟨terms, hterms, -⟩ := activeOrder_eq_ok h
    obtain ⟨term, -, step⟩ := Checked.exists_mem_mapM hterms mem
    obtain ⟨f, found, -⟩ := strictTerm_eq_ok step
    refine ⟨f, found, exists_expression_of_mem_asked described h ?_⟩
    exact List.mem_append_left _ (List.mem_filterMap.mpr ⟨key, mem, found⟩)
  · intro f found
    refine exists_expression_of_mem_asked described h ?_
    exact List.mem_append_right _ (Option.mem_toList.mpr found)

/-- Orders with their users, whose `id` is shadowed by the order's own. -/
def orders : Table where
  name := "orders"
  base := "orders"
  columns := [{ name := "id", nullable := false }]
  joins := [.mk "users" "u" .left (.columns "user_id" "id") [{ name := "id" }] []]

/-- Sorted by the users' `id`, the orders lose their own: it identifies rows, and is displaced. -/
theorem activeOrder_expression_iff_orders :
    ∃ r order f, Resolver.ofTableAs [] orders .sqlite = .ok r
      ∧ activeOrder r [{ field := "u.id" }] = .ok order ∧ cursorField? r = some f
      ∧ order.map (fun term => term.expression.sql) = [Bytes.ofString "\"u\".\"id\""]
      ∧ f.expression.sql = Bytes.ofString "\"orders\".\"id\""
      ∧ Displaced r (asked r [{ field := "u.id" }]) f := by
  have sorted (r : Resolver) (order : List OrderTerm) (f : Field)
      (hr : Resolver.ofTableAs [] orders .sqlite = .ok r)
      (h : activeOrder r [{ field := "u.id" }] = .ok order) (found : cursorField? r = some f)
      (texts : order.map (fun term => term.expression.sql) = [Bytes.ofString "\"u\".\"id\""])
      (text : f.expression.sql = Bytes.ofString "\"orders\".\"id\"") :
      Displaced r (asked r [{ field := "u.id" }]) f := by
    by_contra placed
    obtain ⟨term, mem, same⟩ := ((activeOrder_expression_iff hr h).2 f found).mpr placed
    have inside : term.expression.sql ∈ order.map fun term => term.expression.sql := List.mem_map_of_mem mem
    rw [texts, List.mem_singleton, same, text] at inside
    exact absurd inside (by decide +kernel)
  refine ⟨_, _, _, rfl, rfl, rfl, ?_, ?_, ?_⟩
  · decide +kernel
  · decide +kernel
  · exact sorted _ _ _ rfl rfl rfl (by decide +kernel) (by decide +kernel)

end Keyset

end TableQuery

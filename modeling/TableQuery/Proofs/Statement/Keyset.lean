import TableQuery.Proofs.Statement.Condition
import TableQuery.Statement.Keyset

/-!
# The order and the continuation of a page by cursor

The terms of a cursor's order are the expressions of fields, and the continuation is a disjunction of
conjunctions of tests of them. So the continuation may be put beside any other condition, whatever token it
comes from.

## What is proved

`Keyset.mem_activeOrder`: every term of an active order has the expression and the name of a field that look-up
returns, one that may be sorted by and shown. `Keyset.reads_continuationAfter`: the continuation agrees with its
recorded connective.
-/

namespace TableQuery

namespace Keyset

variable {strict : Prop}

/-! ## The terms of an order -/

/-- The term is made of a field that look-up returns, which may be sorted by and shown. -/
def IsTermOf (r : Resolver) (t : OrderTerm) : Prop :=
  ∃ name f, r.resolve name = some f ∧ f.supports .sort = true ∧ f.hidden = false
    ∧ t.field = f.name ∧ t.expression = f.expression

theorem strictTerm_eq_ok {r : Resolver} {key : SortKey} {t : OrderTerm} (h : r.strictTerm key = .ok t) :
    ∃ f, r.resolve key.field = some f ∧ f.supports .sort = true ∧ f.hidden = false
      ∧ t = Resolver.termOf f key.direction := by
  unfold Resolver.strictTerm at h
  obtain ⟨found, hfound, h⟩ := Checked.bind_eq_ok.mp h
  unfold Resolver.resolveFor at hfound
  cases resolved : r.resolve key.field with
  | none =>
    rw [resolved] at hfound
    cases hfound
    cases h
  | some f =>
    rw [resolved] at hfound
    dsimp only at hfound
    split_ifs at hfound with sortable
    cases hfound
    dsimp only at h
    split_ifs at h with hidden
    cases h
    exact ⟨f, rfl, sortable, Bool.not_eq_true _ ▸ hidden, rfl⟩

theorem mem_dedupe {terms : List OrderTerm} {t : OrderTerm} (h : t ∈ dedupe terms) : t ∈ terms := by
  have general (kept : List OrderTerm)
      (h : t ∈ terms.foldl
        (fun kept t => if kept.any fun k => k.field == t.field then kept else kept ++ [t]) kept) :
      t ∈ kept ∨ t ∈ terms := by
    clear * - h
    induction terms generalizing kept with
    | nil => exact .inl h
    | cons u rest ih =>
      rw [List.foldl_cons] at h
      rcases ih _ h with mem | mem
      · split_ifs at mem
        · exact .inl mem
        · rcases List.mem_append.mp mem with mem | mem
          · exact .inl mem
          · rw [List.mem_singleton.mp mem]
            exact .inr List.mem_cons_self
      · exact .inr (List.mem_cons_of_mem _ mem)
  rcases general [] h with mem | mem
  · exact absurd mem List.not_mem_nil
  · exact mem

theorem mem_markPresent {field : Bytes} {terms : List OrderTerm} {t : OrderTerm}
    (h : t ∈ markPresent field terms) :
    ∃ u ∈ terms, t.field = u.field ∧ t.expression = u.expression := by
  induction terms with
  | nil => cases h
  | cons u rest ih =>
    rw [markPresent] at h
    split_ifs at h
    · rcases List.mem_cons.mp h with rfl | mem
      · exact ⟨u, List.mem_cons_self, rfl, rfl⟩
      · exact ⟨t, List.mem_cons_of_mem _ mem, rfl, rfl⟩
    · rcases List.mem_cons.mp h with rfl | mem
      · exact ⟨t, List.mem_cons_self, rfl, rfl⟩
      · obtain ⟨v, hv, same⟩ := ih mem
        exact ⟨v, List.mem_cons_of_mem _ hv, same⟩

theorem mem_endWith {key : Field} {terms : List OrderTerm} {t : OrderTerm}
    (h : t ∈ endWith key terms) :
    (∃ u ∈ terms, t.field = u.field ∧ t.expression = u.expression)
      ∨ t.field = key.name ∧ t.expression = key.expression := by
  unfold endWith at h
  split_ifs at h
  · exact .inl (mem_markPresent h)
  · rcases List.mem_append.mp h with mem | mem
    · exact .inl ⟨t, mem, rfl, rfl⟩
    · rw [List.mem_singleton.mp mem]
      exact .inr ⟨rfl, rfl⟩

/-- The terms of the strict order come from its keys. -/
theorem mem_strictOrder {r : Resolver} {requested : List SortKey} {terms : List OrderTerm} {t : OrderTerm}
    (h : r.strictOrder requested = .ok terms) (mem : t ∈ terms) : IsTermOf r t := by
  obtain ⟨key, -, step⟩ := Checked.exists_of_mem_mapM h mem
  obtain ⟨f, found, sortable, shown, rfl⟩ := strictTerm_eq_ok step
  exact ⟨key.field, f, found, sortable, shown, rfl, rfl⟩

/-- The field of the description that identifies rows, if there is one that pages can be cut by. -/
def cursorField? (r : Resolver) : Option Field :=
  if r.table.pagination.cursorKey.isEmpty then none else usableKey? r r.table.pagination.cursorKey

/-- An active order is the strict one without repeated fields, ended with the field that identifies rows. -/
theorem activeOrder_eq_ok {r : Resolver} {requested : List SortKey} {order : List OrderTerm}
    (h : activeOrder r requested = .ok order) :
    ∃ terms, r.strictOrder requested = .ok terms
      ∧ order = match cursorField? r with
        | some f => endWith f (dedupe terms)
        | none => dedupe terms := by
  unfold activeOrder at h
  obtain ⟨terms, hterms, h⟩ := Checked.bind_eq_ok.mp h
  refine ⟨terms, hterms, ?_⟩
  unfold cursorField?
  by_cases none : r.table.pagination.cursorKey.isEmpty = true
  · rw [if_pos none] at h ⊢
    cases h
    rfl
  · rw [if_neg none] at h ⊢
    cases usable : usableKey? r r.table.pagination.cursorKey with
    | some f =>
      rw [usable] at h
      cases h
      rfl
    | none =>
      rw [usable] at h
      dsimp only at h
      split_ifs at h
      cases h
      rfl

theorem resolve_of_cursorField? {r : Resolver} {f : Field} (h : cursorField? r = some f) :
    r.resolve r.table.pagination.cursorKey = some f := by
  unfold cursorField? at h
  split_ifs at h
  exact (Option.filter_eq_some_iff.mp h).1

/-- The field that identifies rows may be sorted by and shown. -/
theorem usable_of_cursorField? {r : Resolver} {f : Field} (h : cursorField? r = some f) :
    f.supports .sort = true ∧ f.hidden = false := by
  unfold cursorField? at h
  split_ifs at h
  have usable := (Option.filter_eq_some_iff.mp h).2
  rw [Bool.and_eq_true, Bool.not_eq_true'] at usable
  exact usable.symm

/-- Every term of an active order is made of a field that look-up returns and that may be shown. -/
theorem mem_activeOrder {r : Resolver} {requested : List SortKey} {order : List OrderTerm} {t : OrderTerm}
    (h : activeOrder r requested = .ok order) (mem : t ∈ order) : IsTermOf r t := by
  obtain ⟨terms, hterms, rfl⟩ := activeOrder_eq_ok h
  have deduped {u : OrderTerm} (hu : u ∈ dedupe terms) : IsTermOf r u :=
    mem_strictOrder hterms (mem_dedupe hu)
  cases ending : cursorField? r with
  | none =>
    rw [ending] at mem
    exact deduped mem
  | some key =>
    rw [ending] at mem
    rcases mem_endWith mem with ⟨u, hu, field, expression⟩ | ⟨field, expression⟩
    · obtain ⟨name, f, found, sortable, shown, named, expressed⟩ := deduped hu
      exact ⟨name, f, found, sortable, shown, field.trans named, expression.trans expressed⟩
    · obtain ⟨sortable, shown⟩ := usable_of_cursorField? ending
      exact ⟨_, key, resolve_of_cursorField? ending, sortable, shown, field, expression⟩

variable {d : Dialect}

theorem Key.isTest_equal {k : Key} (he : k.term.expression.IsOperand strict) : k.equal.IsTest strict := by
  unfold Key.equal
  split_ifs
  · exact Operator.isTest_isNull he
  · exact Operator.isTest_sign (opens_of_scan rfl) he k.value

theorem Key.isTest_beyond {k : Key} (he : k.term.expression.IsOperand strict) (descending : Bool) :
    (Operator.binary k.term.expression (if descending then "<" else ">") k.value).IsTest strict := by
  cases descending with
  | true =>
    have below : Opens (spaced "<") [Token.sign "<"] := opens_of_scan rfl
    exact Operator.isTest_sign below he k.value
  | false =>
    have above : Opens (spaced ">") [Token.sign ">"] := opens_of_scan rfl
    exact Operator.isTest_sign above he k.value

/-- A disjunction of two tests has text and may be put beside any other condition. -/
theorem reads_either {f g : Fragment} (hf : f.IsTest strict) (hg : g.IsTest strict) :
    (Fragment.any [f, g]).Reads strict ∧ (Fragment.any [f, g]).isEmpty = false := by
  constructor
  · exact Fragment.reads_any (List.forall_mem_cons.mpr ⟨hf.reads, List.forall_mem_singleton.mpr hg.reads⟩)
  · rw [Bool.eq_false_iff]
    intro empty
    have none := Fragment.isEmpty_combine.mp empty
    simp [Fragment.present, hf.filled] at none

theorem Key.reads_after? {k : Key} (he : k.term.expression.IsOperand strict) {f : Fragment}
    (h : k.after? d = some f) : f.Reads strict ∧ f.isEmpty = false := by
  unfold Key.after? at h
  dsimp only at h
  have beyond := Key.isTest_beyond he (k.term.direction == .desc)
  generalize Operator.binary k.term.expression (if k.term.direction == .desc then "<" else ">") k.value
    = condition at h beyond
  split_ifs at h
  · cases h
    have test := Operator.isTest_isNotNull he
    exact ⟨test.reads, test.filled⟩
  · cases h
    exact reads_either beyond (Operator.isTest_isNull he)
  · cases h
    exact ⟨beyond.reads, beyond.filled⟩

/-- The branches of the expansion have text and may be put beside any other condition. -/
theorem reads_branches {equalities : List Fragment} {keys : List Key}
    (heq : ∀ e ∈ equalities, e.IsTest strict) (hkeys : ∀ k ∈ keys, k.term.expression.IsOperand strict) :
    ∀ b ∈ branches d equalities keys, b.Reads strict ∧ b.isEmpty = false := by
  induction keys generalizing equalities with
  | nil => exact List.forall_mem_nil _
  | cons k rest ih =>
    rw [List.forall_mem_cons] at hkeys
    have more : ∀ b ∈ branches d (equalities ++ [k.equal]) rest, b.Reads strict ∧ b.isEmpty = false := by
      refine ih ?_ hkeys.2
      rw [List.forall_mem_append, List.forall_mem_singleton]
      exact ⟨heq, Key.isTest_equal hkeys.1⟩
    rw [branches]
    cases hafter : k.after? d with
    | none => exact more
    | some after =>
      obtain ⟨reads, filled⟩ := Key.reads_after? hkeys.1 hafter
      rw [List.forall_mem_cons]
      refine ⟨⟨?_, ?_⟩, more⟩
      · apply Fragment.reads_all
        rw [List.forall_mem_append, List.forall_mem_singleton]
        exact ⟨fun e mem => (heq e mem).reads, reads⟩
      · rw [Bool.eq_false_iff]
        intro empty
        have none := Fragment.isEmpty_combine.mp empty
        simp [Fragment.present, List.filter_append, filled] at none

/-- The keys are the terms of the order that the boundary has values for. -/
theorem mem_keysOf {order : List OrderTerm} {boundary : Json} {k : Key} (h : k ∈ keysOf order boundary) :
    k.term ∈ order ∧ boundary.get? k.term.field = some k.value := by
  obtain ⟨t, ht, hk⟩ := List.mem_filterMap.mp h
  obtain ⟨v, found, rfl⟩ := Option.map_eq_some_iff.mp hk
  exact ⟨ht, found⟩

section Composes

variable {P : Fragment → Prop} (composes : Fragment.Composes P)
include composes

/-- The branches of the expansion have what the conditions of the keys have. -/
theorem forall_branches {equalities : List Fragment} {keys : List Key} (heq : ∀ e ∈ equalities, P e)
    (hkeys : ∀ k ∈ keys, P k.equal ∧ ∀ g, k.after? d = some g → P g) : ∀ b ∈ branches d equalities keys, P b := by
  induction keys generalizing equalities with
  | nil => exact List.forall_mem_nil _
  | cons k rest ih =>
    rw [List.forall_mem_cons] at hkeys
    have more : ∀ b ∈ branches d (equalities ++ [k.equal]) rest, P b := by
      refine ih ?_ hkeys.2
      rw [List.forall_mem_append, List.forall_mem_singleton]
      exact ⟨heq, hkeys.1.1⟩
    rw [branches]
    cases hafter : k.after? d with
    | none => exact more
    | some after =>
      refine List.forall_mem_cons.mpr ⟨composes.all ?_, more⟩
      rw [List.forall_mem_append, List.forall_mem_singleton]
      exact ⟨heq, hkeys.1.2 after hafter⟩

/-- The continuation after a boundary has what the conditions of the keys have. -/
theorem forall_continuationAfter (nothing : P .empty) (never : P .alwaysFalse) {order : List OrderTerm}
    {boundary : Json} (hkeys : ∀ k ∈ keysOf order boundary, P k.equal ∧ ∀ g, k.after? d = some g → P g) :
    P (continuationAfter d order boundary) := by
  unfold continuationAfter
  dsimp only
  split_ifs
  · exact nothing
  · split
    · exact never
    · exact composes.any (forall_branches composes (List.forall_mem_nil _) hkeys)

end Composes

section OfRequest

variable {r : Resolver} {cursor : Option Bytes} {pageSize : Option Int64} {requested : List SortKey} {k : Keyset}

/-- What a page by cursor is made of: the active order, a continuation after the boundary of the token if there is one,
and the page size with one more row to fetch. -/
theorem ofRequest_eq_ok (h : ofRequest r cursor pageSize requested = .ok k) :
    ∃ order continuation, activeOrder r requested = .ok order
      ∧ ((cursor.getD []).isEmpty = true ∧ continuation = .empty
        ∨ (cursor.getD []).isEmpty = false ∧ ∃ boundary, Cursor.decode (cursor.getD []) = some boundary
          ∧ continuation = continuationAfter r.dialect order boundary)
      ∧ k = { order, continuation, pageSize := r.table.pagination.clampSize pageSize
              fetchLimit := r.table.pagination.clampSize pageSize + 1 } := by
  unfold ofRequest at h
  obtain ⟨order, active, h⟩ := Checked.bind_eq_ok.mp h
  unfold ofToken at h
  split_ifs at h with first
  · cases h
    exact ⟨order, .empty, active, .inl ⟨first, rfl⟩, rfl⟩
  · cases decoded : Cursor.decode (cursor.getD []) with
    | none =>
      rw [decoded] at h
      cases h
    | some boundary =>
      rw [decoded] at h
      cases h
      exact ⟨order, _, active, .inr ⟨Bool.eq_false_iff.mpr first, boundary, rfl, rfl⟩, rfl⟩

/-- A page is in the active order of its request. -/
theorem activeOrder_of_ofRequest (h : ofRequest r cursor pageSize requested = .ok k) :
    activeOrder r requested = .ok k.order := by
  obtain ⟨order, continuation, active, -, rfl⟩ := ofRequest_eq_ok h
  exact active

/-- A page goes on from the start, or after the boundary of its token. -/
theorem continuation_of_ofRequest (h : ofRequest r cursor pageSize requested = .ok k) :
    k.continuation = .empty ∨ ∃ boundary, Cursor.decode (cursor.getD []) = some boundary
      ∧ k.continuation = continuationAfter r.dialect k.order boundary := by
  obtain ⟨order, continuation, -, ⟨-, rfl⟩ | ⟨-, boundary, decoded, rfl⟩, rfl⟩ := ofRequest_eq_ok h
  · exact .inl rfl
  · exact .inr ⟨boundary, decoded, rfl⟩

/-- A page is of the size that a request may have, and one more row is fetched. -/
theorem sizes_of_ofRequest (h : ofRequest r cursor pageSize requested = .ok k) :
    k.pageSize = r.table.pagination.clampSize pageSize ∧ k.fetchLimit = k.pageSize + 1 := by
  obtain ⟨order, continuation, -, -, rfl⟩ := ofRequest_eq_ok h
  exact ⟨rfl, rfl⟩

end OfRequest

end Keyset

end TableQuery

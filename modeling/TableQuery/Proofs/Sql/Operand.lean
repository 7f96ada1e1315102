import TableQuery.Proofs.Sql.Connective

/-!
# Operands and comparisons

A column, a call or a parenthesised expression is an operand: no sign and no connective stands in it outside
of parentheses (`Fragment.IsOperand`). What an operator makes of an operand is a test (`Fragment.IsTest`):
one atom, which no connective around it takes apart, whatever the column and the value are.

`Fragment.Spells` says what a fragment's text reads as wherever it stands, and its laws follow the ways a
fragment is built: by text, by a bound value, by another fragment, by parentheses.

## What is proved

`IsTest.after` and `IsTest.append`: a test stays one after an operand, and with more tokens that do not cut it.
`truth?_test`: a test means what the valuation says of its tokens, all of them together. `bound_after`: the
values of a test of an operand stand in the test's own placeholders.
-/

namespace TableQuery

/-! ## Tokens -/

namespace Token

/-- Whether a token may stand in an operand. -/
def isOperand : Token → Bool
  | keyword k => k == .null
  | sign _ => false
  | _ => true

/-- Whether a token neither cuts a condition nor begins a clause. -/
def isSteady (t : Token) : Bool :=
  match t.keyword? with
  | some .and | some .or | some .between | some .whereClause | some .orderClause => false
  | _ => true

theorem isSteady_of_isOperand {t : Token} (h : t.isOperand = true) : t.isSteady = true := by
  cases t with
  | keyword k => cases k <;> first | rfl | cases h
  | _ => rfl

theorem isOperand_fill (values : List Json) (t : Token) : (t.fill values).isOperand = t.isOperand := by
  cases t <;> rfl

end Token

theorem isOperand_fillAll (values : List Json) (ts : List Token) :
    (fillAll values ts).all Token.isOperand = ts.all Token.isOperand := by
  induction ts generalizing values with
  | nil => rfl
  | cons t rest ih => rw [fillAll, List.all_cons, List.all_cons, Token.isOperand_fill, ih]

theorem isSteady_of_isOperand {ts : List Token} (h : ts.all Token.isOperand = true) :
    ts.all Token.isSteady = true := by
  rw [List.all_eq_true] at h ⊢
  exact fun t mem => Token.isSteady_of_isOperand (h t mem)

theorem isWaiting_steady {ts : List Token} (h : ts.all Token.isSteady = true) (waiting : Bool) :
    isWaiting waiting (ts.map Token.keyword?) = waiting := by
  induction ts with
  | nil => rfl
  | cons t rest ih =>
    rw [List.all_cons, Bool.and_eq_true] at h
    have head := h.1
    rw [List.map_cons, isWaiting]
    split_ifs with hand hbetween
    · simp [Token.isSteady, hand] at head
    · simp [Token.isSteady, hbetween] at head
    · exact ih h.2

theorem isWhole_steady {ts : List Token} (h : ts.all Token.isSteady = true) (waiting : Bool) :
    isWhole waiting (ts.map Token.keyword?) = true := by
  induction ts with
  | nil => rfl
  | cons t rest ih =>
    rw [List.all_cons, Bool.and_eq_true] at h
    have head := h.1
    rw [List.map_cons, isWhole]
    split_ifs with hand hbetween
    · simp [Token.isSteady, hand] at head
    · simp [Token.isSteady, hbetween] at head
    · exact ih h.2

theorem noOr_steady {ts : List Token} (h : ts.all Token.isSteady = true) :
    ∀ t ∈ ts, t.keyword? ≠ some .or := by
  intro t mem key
  have steady := List.all_eq_true.mp h t mem
  simp [Token.isSteady, key] at steady

theorem clauseless_steady {ts : List Token} (h : ts.all Token.isSteady = true) :
    ∀ t ∈ ts, t.keyword? ≠ some .whereClause ∧ t.keyword? ≠ some .orderClause := by
  intro t mem
  have steady := List.all_eq_true.mp h t mem
  constructor <;> intro key <;> simp [Token.isSteady, key] at steady

/-- Tokens that are read as one atom, and go on doing so after an operand. -/
structure IsTest (ts : List Token) : Prop extends IsAtom ts where
  filled : ts ≠ []
  clauseless : ∀ t ∈ ts, t.keyword? ≠ some .whereClause ∧ t.keyword? ≠ some .orderClause

namespace IsTest

variable {ts us : List Token}

/-- A single token that is no parenthesis and no negation. -/
theorem single {t : Token} (steady : t.isSteady = true) (bare : ∀ content, t ≠ Token.group content)
    (positive : t ≠ Token.keyword .not) : IsTest [t] := by
  have all : [t].all Token.isSteady = true := by rw [List.all_cons, steady]; rfl
  refine ⟨⟨⟨noOr_steady all, isWaiting_steady all false⟩, isWhole_steady all false, ?_, ?_⟩, ?_, ?_⟩
  · intro content eq
    exact bare content (List.singleton_inj.mp eq)
  · intro rest eq
    exact absurd (List.cons.inj eq).1 positive
  · exact List.cons_ne_nil _ _
  · exact clauseless_steady all

theorem sign (text : Bytes) : IsTest [Token.sign text] := single rfl nofun nofun

/-- A keyword that an operator begins with. -/
theorem opening {k : Keyword} (h : k = .is ∨ k = .isIn ∨ k = .like ∨ k = .ilike) :
    IsTest [Token.keyword k] := by
  rcases h with rfl | rfl | rfl | rfl <;> exact single rfl nofun nofun

theorem notIn : IsTest [Token.keyword .not, Token.keyword .isIn] where
  noOr := by decide
  settled := rfl
  whole := rfl
  bare := nofun
  positive := fun _ eq => ⟨[], (List.cons.inj eq).2.symm⟩
  filled := List.cons_ne_nil _ _
  clauseless := by decide

theorem between : IsTest [Token.keyword .between, Token.slot none, Token.keyword .and] where
  noOr := by simp [Token.keyword?]
  settled := rfl
  whole := rfl
  bare := nofun
  positive := nofun
  filled := List.cons_ne_nil _ _
  clauseless := by simp [Token.keyword?]

/-- A test goes on with tokens that do not cut it. -/
theorem append (h : IsTest ts) (steady : us.all Token.isSteady = true) : IsTest (ts ++ us) where
  noOr := List.forall_mem_append.mpr ⟨h.noOr, noOr_steady steady⟩
  settled := by rw [List.map_append, isWaiting_append, h.settled, isWaiting_steady steady]
  whole := by
    rw [List.map_append, isWhole_append, h.whole, h.settled, isWhole_steady steady]
    rfl
  bare := by
    intro content eq
    rcases List.append_eq_singleton_iff.mp eq with ⟨none, -⟩ | ⟨one, -⟩
    · exact h.filled none
    · exact h.bare content one
  positive := by
    intro rest eq
    obtain ⟨t, more, rfl⟩ := List.exists_cons_of_ne_nil h.filled
    obtain ⟨rfl, rfl⟩ := List.cons.inj eq
    obtain ⟨tail, rfl⟩ := h.positive more rfl
    exact ⟨tail ++ us, rfl⟩
  filled := List.append_ne_nil_of_left_ne_nil h.filled us
  clauseless := List.forall_mem_append.mpr ⟨h.clauseless, clauseless_steady steady⟩

/-- A test of an operand. -/
theorem after (h : IsTest us) (operand : ts.all Token.isOperand = true) : IsTest (ts ++ us) where
  noOr := List.forall_mem_append.mpr
    ⟨noOr_steady (isSteady_of_isOperand operand), h.noOr⟩
  settled := by
    rw [List.map_append, isWaiting_append,
      isWaiting_steady (isSteady_of_isOperand operand), h.settled]
  whole := by
    rw [List.map_append, isWhole_append,
      isWhole_steady (isSteady_of_isOperand operand),
      isWaiting_steady (isSteady_of_isOperand operand), h.whole]
    rfl
  bare := by
    intro content eq
    rcases List.append_eq_singleton_iff.mp eq with ⟨-, one⟩ | ⟨-, none⟩
    · exact h.bare content one
    · exact h.filled none
  positive := by
    intro rest eq
    cases ts with
    | nil => exact h.positive rest eq
    | cons t ts =>
      have negation := List.all_eq_true.mp operand t List.mem_cons_self
      rw [(List.cons.inj eq).1] at negation
      cases negation
  filled := List.append_ne_nil_of_right_ne_nil ts h.filled
  clauseless := List.forall_mem_append.mpr
    ⟨clauseless_steady (isSteady_of_isOperand operand), h.clauseless⟩

end IsTest

theorem Token.fill_eq_keyword {values : List Json} {t : Token} {k : Keyword}
    (h : t.fill values = Token.keyword k) : t = Token.keyword k := by
  cases t with
  | keyword => exact h
  | _ => cases h

theorem Token.fill_eq_group {values : List Json} {t : Token} {content : List Token}
    (h : t.fill values = Token.group content) : ∃ inner, t = Token.group inner := by
  cases t with
  | group inner => exact ⟨inner, rfl⟩
  | _ => cases h

/-- Binding values keeps an atom one. -/
theorem IsAtom.fillAll {ts : List Token} (h : IsAtom ts) (values : List Json) :
    IsAtom (fillAll values ts) where
  toPlain := h.toPlain.fillAll values
  whole := by rw [map_keyword?_fillAll, h.whole]
  bare := by
    intro content eq
    match ts with
    | [] => cases eq
    | [t] =>
      obtain ⟨inner, rfl⟩ := Token.fill_eq_group (List.singleton_inj.mp eq)
      exact h.bare inner rfl
    | _ :: _ :: _ => cases (List.cons.inj eq).2
  positive := by
    intro rest eq
    cases ts with
    | nil => cases eq
    | cons t more =>
      obtain ⟨negation, rfl⟩ := List.cons.inj eq
      obtain ⟨tail, rfl⟩ := h.positive more (by rw [Token.fill_eq_keyword negation])
      exact ⟨_, rfl⟩

/-! ## Texts of fragments -/

namespace Fragment

/-- The text adds the tokens, and each value has its placeholder among them. With `strict`, each placeholder
has its value too. -/
structure Spells (strict : Prop) (f : Fragment) (ts : List Token) : Prop where
  lexes : Lexes f.sql ts
  room : f.params.length ≤ slotsOf ts
  tight : strict → slotsOf ts = f.params.length

namespace Spells

variable {strict : Prop} {f g : Fragment} {ts us vs : List Token} {sep : Bytes}

theorem raw (h : f.Spells strict ts) : f.raw = ts := raw_eq h.lexes

theorem of_eq (h : f.Spells strict ts) (sql : g.sql = f.sql) (params : g.params = f.params) :
    g.Spells strict ts := by
  refine ⟨?_, ?_, ?_⟩
  · rw [sql]
    exact h.lexes
  · rw [params]
    exact h.room
  · rw [params]
    exact h.tight

/-- Text without placeholders. -/
theorem text {sql : Bytes} (h : Lexes sql ts) (none : slotsOf ts = 0) :
    (Fragment.text sql).Spells strict ts :=
  ⟨h, Nat.zero_le _, fun _ => none⟩

/-- Text after a fragment. -/
theorem add (h : f.Spells strict ts) (hb : Scanner.breaks sep = true) (hs : Lexes sep us)
    (none : slotsOf us = 0) : (f.add sep).Spells strict (ts ++ us) := by
  refine ⟨h.lexes.append hb hs, ?_, ?_⟩
  · rw [slotsOf_append, none, params_add]
    exact h.room
  · rw [slotsOf_append, none, params_add]
    exact h.tight

/-- A bound value after a fragment. -/
theorem bind (h : f.Spells strict ts) (v : Json) : (f.bind v).Spells strict (ts ++ [Token.slot Option.none]) := by
  have question : Opens [Ascii.question] [Token.slot Option.none] := fun _ _ => rfl
  refine ⟨h.lexes.append rfl question.lexes, ?_, ?_⟩
  · rw [slotsOf_append, params_bind, List.length_append]
    exact Nat.add_le_add_right h.room 1
  · intro s
    rw [slotsOf_append, params_bind, List.length_append, h.tight s]
    rfl

/-- Two fragments with text between them. -/
theorem between (h : f.Spells strict ts) (hb : Scanner.breaks sep = true) (hs : Opens sep us)
    (none : slotsOf us = 0) (hg : g.Spells strict vs) :
    (f.add sep ++ g).Spells strict (ts ++ us ++ vs) := by
  refine ⟨(h.lexes.opens hb hs).append hg.lexes, ?_, ?_⟩
  · rw [slotsOf_append, slotsOf_append, none, params_append, params_add, List.length_append]
    exact Nat.add_le_add h.room hg.room
  · intro s
    rw [slotsOf_append, slotsOf_append, none, params_append, params_add, List.length_append, h.tight s,
      hg.tight s, Nat.add_zero]

/-- A fragment after text that ends between two tokens. -/
theorem prefixed {sql : Bytes} (hs : Opens sql us) (none : slotsOf us = 0) (hg : g.Spells strict vs) :
    (Fragment.text sql ++ g).Spells strict (us ++ vs) := by
  refine ⟨hs.append hg.lexes, ?_, ?_⟩
  · rw [slotsOf_append, none, Nat.zero_add]
    exact hg.room
  · rw [slotsOf_append, none, Nat.zero_add]
    exact hg.tight

/-- A fragment in parentheses after a name, or after nothing. -/
theorem call {name : Bytes} (hn : Lexes name us) (none : slotsOf us = 0) (h : f.Spells strict ts) :
    ((Fragment.text (name ++ [Ascii.leftParen]) ++ f).add [Ascii.rightParen]).Spells strict
      (us ++ [Token.group ts]) := by
  refine ⟨?_, ?_, ?_⟩
  · have group := hn.append rfl (Lexes.group h.lexes).lexes
    rw [sql_add, sql_append]
    simpa only [Fragment.text, List.append_assoc, List.cons_append, List.nil_append] using group
  · rw [slotsOf_append, none, Nat.zero_add]
    exact h.room
  · rw [slotsOf_append, none, Nat.zero_add]
    exact h.tight

/-- A fragment in parentheses. -/
theorem wrapped (h : f.Spells strict ts) : f.wrapped.Spells strict [Token.group ts] :=
  ⟨(Lexes.group h.lexes).lexes, h.room, h.tight⟩

/-- A bound value alone. -/
theorem value (v : Json) : (Fragment.value v).Spells strict [Token.slot none] :=
  ⟨fun _ _ => rfl, le_refl 1, fun _ => rfl⟩

private theorem foldl_join {fs : List Fragment} (hb : Scanner.breaks sep = true)
    (hs : Opens sep us) (none : slotsOf us = 0) (h : f.Spells strict ts)
    (hfs : ∀ g ∈ fs, g.Spells strict g.raw) :
    (fs.foldl (fun acc g => acc.add sep ++ g) f).Spells strict
      (ts ++ fs.flatMap fun g => us ++ g.raw) := by
  induction fs generalizing f ts with
  | nil => simpa using h
  | cons g fs ih =>
    rw [List.forall_mem_cons] at hfs
    have next := ih (h.between hb hs none hfs.1) hfs.2
    simpa only [List.foldl_cons, List.flatMap_cons, List.append_assoc] using next

/-- Fragments with a separator between them. -/
theorem join {fs : List Fragment} (hb : Scanner.breaks sep = true) (hs : Opens sep us)
    (none : slotsOf us = 0) (h : ∀ g ∈ f :: fs, g.Spells strict g.raw) :
    (Fragment.join sep (f :: fs)).Spells strict (f.raw ++ fs.flatMap fun g => us ++ g.raw) := by
  rw [List.forall_mem_cons] at h
  exact foldl_join hb hs none (h.1.of_eq (g := empty ++ f) rfl rfl) h.2

/-- A text that may be put together with others. -/
theorem reads (h : f.Spells strict ts) (plain : Plain ts)
    (clauseless : ∀ t ∈ ts, t.keyword? ≠ some .whereClause ∧ t.keyword? ≠ some .orderClause) :
    f.Reads strict := by
  refine ⟨?_, ?_, ?_, ?_, ?_⟩
  · rw [h.raw]
    exact h.lexes
  · rw [h.raw]
    exact h.room
  · rw [Aligned, h.raw]
    exact h.tight
  · rw [h.raw]
    exact fun _ => plain
  · rw [h.raw]
    exact clauseless

end Spells

theorem Reads.spells {strict : Prop} {f : Fragment} (h : f.Reads strict) : f.Spells strict f.raw :=
  ⟨h.lexes, h.room, h.tight⟩

/-- An expression that a condition may be about: no sign and no connective stands in it outside of
parentheses. -/
structure IsOperand (strict : Prop) (e : Fragment) : Prop where
  spells : e.Spells strict e.raw
  operand : e.raw.all Token.isOperand = true
  kind : e.kind = .atom

/-- A condition that is one atom. -/
structure IsTest (strict : Prop) (f : Fragment) : Prop where
  spells : f.Spells strict f.raw
  test : TableQuery.IsTest f.raw

section Tests

variable {strict : Prop} {σ : List Token → Truth} {e f : Fragment} {ts : List Token}

theorem Spells.isOperand (h : e.Spells strict ts) (operand : ts.all Token.isOperand = true)
    (kind : e.kind = .atom) : e.IsOperand strict := by
  refine ⟨?_, ?_, kind⟩
  · rw [h.raw]
    exact h
  · rw [h.raw]
    exact operand

theorem Spells.isTest (h : f.Spells strict ts) (test : TableQuery.IsTest ts) : f.IsTest strict := by
  refine ⟨?_, ?_⟩
  · rw [h.raw]
    exact h
  · rw [h.raw]
    exact test

theorem IsTest.reads (h : f.IsTest strict) : f.Reads strict :=
  h.spells.reads h.test.toPlain h.test.clauseless

theorem IsTest.filled (h : f.IsTest strict) : f.isEmpty = false := by
  rw [Bool.eq_false_iff]
  intro empty
  have none : f.raw = [] := by
    rw [raw, isEmpty_iff.mp empty]
    rfl
  exact h.test.filled none

/-- A test means what the valuation says of its tokens. -/
theorem truth?_test (h : f.IsTest strict) :
    f.truth? σ = if f.Aligned then some (σ f.bound) else none := by
  have atom : truth σ f.bound = σ f.bound := truth_atom (h.test.toIsAtom.fillAll f.params)
  rw [truth?_eq h.spells.lexes, atom]

/-- A test without unbound placeholders means what the valuation says of its tokens. -/
theorem truth?_strict (h : f.IsTest True) : f.truth? σ = some (σ f.bound) := by
  have aligned : f.Aligned := h.spells.tight trivial
  rw [truth?_test h, if_pos aligned]

/-- What a comparison says of a row, all of its tokens being one atom; none if a database refuses it. -/
def atom? (σ : List Token → Truth) (f : Fragment) : Option Truth := f.tokens?.map σ

theorem IsTest.atom?_eq (h : f.IsTest strict) : f.atom? σ = f.truth? σ := by
  rw [atom?, tokens?_eq h.spells.lexes, truth?_test h]
  split_ifs <;> rfl

/-- A test keeps a row if its atom is true of the row. -/
theorem IsTest.keeps_iff (h : f.IsTest strict) : f.Keeps σ ↔ f.atom? σ = some .true := by
  rw [Keeps, h.filled, h.atom?_eq]
  exact or_iff_right Bool.false_ne_true

/-- A test that keeps a row has a value for each placeholder. -/
theorem IsTest.keeps_iff_bound (h : f.IsTest strict) :
    f.Keeps σ ↔ f.Aligned ∧ σ f.bound = .true := by
  rw [Keeps, h.filled, truth?_test h, or_iff_right Bool.false_ne_true]
  split_ifs with aligned
  · rw [Option.some_inj]
    exact (and_iff_right aligned).symm
  · constructor
    · intro refused
      cases refused
    · exact fun both => absurd both.1 aligned

/-- An operand may stand where a condition may. -/
theorem IsOperand.reads (h : e.IsOperand strict) : e.Reads strict := by
  have steady := isSteady_of_isOperand h.operand
  exact h.spells.reads ⟨noOr_steady steady, isWaiting_steady steady false⟩ (clauseless_steady steady)

/-- A test of an operand with bound values has the values in its own placeholders. -/
theorem bound_after (he : e.Aligned) (hf : f.Spells strict (e.raw ++ ts)) {values : List Json}
    (params : f.params = e.params ++ values) : f.bound = e.bound ++ fillAll values ts := by
  rw [bound, hf.raw, params, fillAll_append_append he]
  rfl

/-- It has a value for each placeholder just if the operand has. -/
theorem aligned_after (hf : f.Spells strict (e.raw ++ ts)) (values : List Json)
    (params : f.params = e.params ++ values) (count : slotsOf ts = values.length) :
    f.Aligned ↔ e.Aligned := by
  rw [Aligned, Aligned, hf.raw, params, slotsOf_append, List.length_append, count]
  exact Nat.add_right_cancel_iff

end Tests

end Fragment

end TableQuery

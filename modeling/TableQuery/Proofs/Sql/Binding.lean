import TableQuery.Proofs.Sql.Reading

/-!
# Binding values

A fragment is a text and a list of values. A database takes it only if the text has as many
placeholders as there are values, and gives the values to the placeholders from left to right. So a
fragment has tokens (`Fragment.tokens?`) when its text can be cut into tokens and the numbers agree, and
each placeholder among these tokens has its value.

## What is proved

`fillAll_append` and `fillAll_prefix`: two pieces take their values one after the other, and a piece
takes no more than it has placeholders for. `map_keyword?_fillAll`: binding changes no keyword, so it does
not change how a text is read.
-/

namespace TableQuery

/-! ## Placeholders -/

mutual

/-- The number of placeholders in a token. -/
def Token.slots : Token → Nat
  | .slot _ => 1
  | .group content => slotsOf content
  | _ => 0

/-- The number of placeholders in a list of tokens. -/
def slotsOf : List Token → Nat
  | [] => 0
  | t :: rest => t.slots + slotsOf rest

end

mutual

/-- A token with values for its placeholders. -/
def Token.fill : List Json → Token → Token
  | values, Token.slot _ => Token.slot values.head?
  | values, Token.group content => Token.group (fillAll values content)
  | _, t => t

/-- Tokens with values for their placeholders, from left to right. -/
def fillAll : List Json → List Token → List Token
  | _, [] => []
  | values, t :: rest => t.fill values :: fillAll (values.drop t.slots) rest

end

@[simp] theorem Token.slots_keyword (k : Keyword) : (Token.keyword k).slots = 0 := rfl

@[simp] theorem Token.fill_keyword (values : List Json) (k : Keyword) :
    (Token.keyword k).fill values = Token.keyword k := rfl

theorem slotsOf_append (ts us : List Token) : slotsOf (ts ++ us) = slotsOf ts + slotsOf us := by
  induction ts with
  | nil => simp [slotsOf]
  | cons t rest ih => simp only [List.cons_append, slotsOf, ih, Nat.add_assoc]

/-- A second piece takes the values that the first one leaves. -/
theorem fillAll_append (values : List Json) (ts us : List Token) :
    fillAll values (ts ++ us) = fillAll values ts ++ fillAll (values.drop (slotsOf ts)) us := by
  induction ts generalizing values with
  | nil => rfl
  | cons t rest ih =>
    simp only [List.cons_append, fillAll, slotsOf, ih, List.drop_drop]

mutual

theorem Token.fill_prefix (values more : List Json) (t : Token) (room : t.slots ≤ values.length) :
    t.fill (values ++ more) = t.fill values := by
  cases t with
  | slot v =>
    cases values with
    | nil => exact absurd room (Nat.not_succ_le_zero 0)
    | cons a values => rfl
  | group content => simp only [Token.fill, fillAll_prefix values more content room]
  | _ => rfl

/-- A piece takes no value beyond its placeholders. -/
theorem fillAll_prefix (values more : List Json) (ts : List Token)
    (room : slotsOf ts ≤ values.length) : fillAll (values ++ more) ts = fillAll values ts := by
  cases ts with
  | nil => rfl
  | cons t rest =>
    simp only [slotsOf] at room
    have tail : slotsOf rest ≤ (values.drop t.slots).length := by
      rw [List.length_drop]
      omega
    rw [fillAll, fillAll, Token.fill_prefix values more t (by omega),
      List.drop_append_of_le_length (by omega), fillAll_prefix _ more rest tail]

end

/-- Two pieces, each with its own values. -/
theorem fillAll_append_append {values more : List Json} {ts us : List Token}
    (h : slotsOf ts = values.length) :
    fillAll (values ++ more) (ts ++ us) = fillAll values ts ++ fillAll more us := by
  rw [fillAll_append, fillAll_prefix values more ts (le_of_eq h), h, List.drop_left]

theorem Token.keyword?_fill (values : List Json) (t : Token) : (t.fill values).keyword? = t.keyword? := by
  cases t <;> rfl

/-- Binding changes no keyword. -/
theorem map_keyword?_fillAll (values : List Json) (ts : List Token) :
    (fillAll values ts).map Token.keyword? = ts.map Token.keyword? := by
  induction ts generalizing values with
  | nil => rfl
  | cons t rest ih => rw [fillAll, List.map_cons, List.map_cons, Token.keyword?_fill, ih]

theorem keyword?_ne_fillAll {ts : List Token} {k : Option Keyword} (h : ∀ t ∈ ts, t.keyword? ≠ k)
    (values : List Json) : ∀ t ∈ fillAll values ts, t.keyword? ≠ k := by
  intro t ht key
  have mem : k ∈ (fillAll values ts).map Token.keyword? := List.mem_map.mpr ⟨t, ht, key⟩
  rw [map_keyword?_fillAll] at mem
  obtain ⟨u, hu, key⟩ := List.mem_map.mp mem
  exact h u hu key

theorem Plain.fillAll {ts : List Token} (h : Plain ts) (values : List Json) :
    Plain (fillAll values ts) where
  noOr := keyword?_ne_fillAll h.noOr values
  settled := by rw [map_keyword?_fillAll, h.settled]

/-! ## Fragments -/

namespace Fragment

/-- The tokens of a fragment's text, its placeholders without values. -/
def raw (f : Fragment) : List Token := (lex f.sql).getD []

/-- The tokens of a fragment, with its values in the placeholders; none if a database would refuse it. -/
def tokens? (f : Fragment) : Option (List Token) :=
  (lex f.sql).bind fun ts =>
    if slotsOf ts = f.params.length then some (fillAll f.params ts) else none

/-- What a condition is under a valuation of its atoms. -/
def truth? (σ : List Token → Truth) (f : Fragment) : Option Truth := f.tokens?.map (truth σ)

/-- The fragment has a value for each of its placeholders. -/
def Aligned (f : Fragment) : Prop := slotsOf f.raw = f.params.length

instance (f : Fragment) : Decidable f.Aligned := inferInstanceAs (Decidable (_ = _))

/-- The tokens of an aligned fragment. -/
def bound (f : Fragment) : List Token := fillAll f.params f.raw

theorem raw_eq {f : Fragment} {ts : List Token} (h : Lexes f.sql ts) : f.raw = ts := by
  rw [raw, lex_eq_some_iff.mpr h]
  rfl

theorem tokens?_eq {f : Fragment} (h : Lexes f.sql f.raw) :
    f.tokens? = if f.Aligned then some f.bound else none := by
  rw [tokens?, lex_eq_some_iff.mpr h]
  rfl

theorem tokens?_congr {f g : Fragment} (sql : f.sql = g.sql) (params : f.params = g.params) :
    f.tokens? = g.tokens? := by
  rw [tokens?, sql, params, ← tokens?]

theorem truth?_eq {f : Fragment} {σ : List Token → Truth} (h : Lexes f.sql f.raw) :
    f.truth? σ = if f.Aligned then some (truth σ f.bound) else none := by
  rw [truth?, tokens?_eq h]
  split_ifs <;> rfl

end Fragment

end TableQuery

import TableQuery.Proofs.Sql.Token
import TableQuery.Proofs.Sql.Truth

/-!
# Reading a condition

The meaning of a condition's tokens, by the precedence of SQL: parentheses bind first, then `NOT`, then
`AND`, then `OR`, and the `AND` of a `BETWEEN` belongs to it. What is left between the connectives is an
atom, such as a comparison; a valuation `σ` says what each atom is on a row.

A condition is read from the outside: cut at each `OR`, each piece at each `AND` that no `BETWEEN` waits
for, and each of these pieces is a negation, a condition in parentheses or an atom (`readItems`).

## What is proved

`truth_or`: tokens joined by `OR` mean the disjunction of what they mean. `truth_and`: tokens joined by `AND`
mean the conjunction, provided that neither side has an `OR` outside of parentheses or a `BETWEEN` that
still waits for its `AND` (`Plain`). `truth_atom`: tokens without a connective are one atom.
-/

namespace TableQuery

/-! ## Cutting at the connectives -/

section Cutting

variable {α : Type} (key : α → Option Keyword)

/-- The pieces between the `OR`s. -/
def splitOr : List α → List (List α)
  | [] => [[]]
  | t :: rest =>
    if key t = some .or then [] :: splitOr rest else (splitOr rest).modifyHead (t :: ·)

/-- The pieces between the `AND`s; `waiting` says whether a `BETWEEN` has yet to see its `AND`. -/
def splitAnd : (waiting : Bool) → List α → List (List α)
  | _, [] => [[]]
  | waiting, t :: rest =>
    if key t = some .and then
      if waiting then (splitAnd false rest).modifyHead (t :: ·) else [] :: splitAnd false rest
    else if key t = some .between then (splitAnd true rest).modifyHead (t :: ·)
    else (splitAnd waiting rest).modifyHead (t :: ·)

end Cutting

/-- Whether a `BETWEEN` still waits for its `AND` after these keywords. -/
def isWaiting : (waiting : Bool) → List (Option Keyword) → Bool
  | waiting, [] => waiting
  | waiting, k :: rest =>
    if k = some .and then isWaiting false rest
    else if k = some .between then isWaiting true rest
    else isWaiting waiting rest

/-- Whether no `AND` among these keywords cuts: each belongs to a `BETWEEN`. -/
def isWhole : (waiting : Bool) → List (Option Keyword) → Bool
  | _, [] => true
  | waiting, k :: rest =>
    if k = some .and then waiting && isWhole false rest
    else if k = some .between then isWhole true rest
    else isWhole waiting rest

/-! ## The meaning -/

/-- A token, with the meaning of its content if it is a group. -/
structure Item where
  token : Token
  inside : Truth

namespace Item

/-- The keyword that an item is. -/
def keyword? (i : Item) : Option Keyword := i.token.keyword?

end Item

/-- The meaning of what stands between two connectives. A `NOT` in front negates the rest, unless an `IN`
follows: that is an operator without its operand. -/
def readFactor (σ : List Token → Truth) : List Item → Truth
  | ⟨Token.keyword .not, _⟩ :: ⟨Token.keyword .isIn, _⟩ :: rest =>
    σ (Token.keyword .not :: Token.keyword .isIn :: rest.map Item.token)
  | ⟨Token.keyword .not, _⟩ :: rest => (readFactor σ rest).not
  | [⟨Token.group _, inside⟩] => inside
  | items => σ (items.map Item.token)

/-- The meaning of what stands between two `OR`s. -/
def readConjunction (σ : List Token → Truth) (items : List Item) : Truth :=
  Truth.all ((splitAnd Item.keyword? false items).map (readFactor σ))

/-- The meaning of a condition, the meanings of its groups being known. -/
def readItems (σ : List Token → Truth) (items : List Item) : Truth :=
  Truth.any ((splitOr Item.keyword? items).map (readConjunction σ))

mutual

/-- The meaning of what is in a group. -/
def Token.inside (σ : List Token → Truth) : Token → Truth
  | .group content => readItems σ (itemsOf σ content)
  | _ => .unknown

/-- Tokens with the meanings of their groups. -/
def itemsOf (σ : List Token → Truth) : List Token → List Item
  | [] => []
  | t :: rest => ⟨t, t.inside σ⟩ :: itemsOf σ rest

end

/-- The meaning of a condition. -/
def truth (σ : List Token → Truth) (ts : List Token) : Truth := readItems σ (itemsOf σ ts)

/-! ## Laws of the cuts -/

section Laws

variable {α : Type} (key : α → Option Keyword) {x : α}

theorem splitOr_ne_nil (ts : List α) : splitOr key ts ≠ [] := by
  induction ts with
  | nil => simp [splitOr]
  | cons t rest ih =>
    rw [splitOr]
    split_ifs
    · simp
    · simpa [List.modifyHead_eq_nil_iff] using ih

theorem splitAnd_ne_nil (waiting : Bool) (ts : List α) : splitAnd key waiting ts ≠ [] := by
  induction ts generalizing waiting with
  | nil => simp [splitAnd]
  | cons t rest ih =>
    rw [splitAnd]
    split_ifs
    · simpa [List.modifyHead_eq_nil_iff] using ih false
    · simp
    · simpa [List.modifyHead_eq_nil_iff] using ih true
    · simpa [List.modifyHead_eq_nil_iff] using ih waiting

private theorem modifyHead_append {l : List (List α)} (h : l ≠ []) (f : List α → List α)
    (m : List (List α)) : l.modifyHead f ++ m = (l ++ m).modifyHead f := by
  cases l with
  | nil => exact absurd rfl h
  | cons a l => rfl

/-- The pieces of two texts with an `OR` between them are the pieces of both. -/
theorem splitOr_append (hx : key x = some .or) (ts us : List α) :
    splitOr key (ts ++ x :: us) = splitOr key ts ++ splitOr key us := by
  induction ts with
  | nil => simp [splitOr, hx]
  | cons t rest ih =>
    simp only [List.cons_append, splitOr]
    split_ifs
    · rw [ih]; rfl
    · rw [ih, modifyHead_append (splitOr_ne_nil key rest)]

/-- The pieces of two texts with an `AND` between them are the pieces of both, if no `BETWEEN` of the first
waits for it. -/
theorem splitAnd_append (hx : key x = some .and) (waiting : Bool) (ts us : List α)
    (done : isWaiting waiting (ts.map key) = false) :
    splitAnd key waiting (ts ++ x :: us) = splitAnd key waiting ts ++ splitAnd key false us := by
  induction ts generalizing waiting with
  | nil =>
    have settled : waiting = false := done
    simp [splitAnd, hx, settled]
  | cons t rest ih =>
    simp only [List.map_cons, isWaiting] at done
    simp only [List.cons_append, splitAnd]
    split_ifs at done ⊢ with hand hw hbetween
    · rw [ih _ done, modifyHead_append (splitAnd_ne_nil key _ rest)]
    · rw [ih _ done]; rfl
    · rw [ih _ done, modifyHead_append (splitAnd_ne_nil key _ rest)]
    · rw [ih _ done, modifyHead_append (splitAnd_ne_nil key _ rest)]

/-- Without an `OR` there is one piece. -/
theorem splitOr_of_forall {ts : List α} (h : ∀ t ∈ ts, key t ≠ some .or) : splitOr key ts = [ts] := by
  induction ts with
  | nil => rfl
  | cons t rest ih =>
    rw [List.forall_mem_cons] at h
    rw [splitOr, if_neg h.1, ih h.2]
    rfl

/-- Where no `AND` cuts there is one piece. -/
theorem splitAnd_of_isWhole {waiting : Bool} {ts : List α} (h : isWhole waiting (ts.map key) = true) :
    splitAnd key waiting ts = [ts] := by
  induction ts generalizing waiting with
  | nil => rfl
  | cons t rest ih =>
    simp only [List.map_cons, isWhole] at h
    simp only [splitAnd]
    split_ifs at h ⊢ with hand hw hbetween
    · rw [hw, Bool.true_and] at h
      rw [ih h]
      rfl
    · simp only [Bool.not_eq_true] at hw
      rw [hw, Bool.false_and] at h
      cases h
    · rw [ih h]
      rfl
    · rw [ih h]
      rfl

theorem isWaiting_append (waiting : Bool) (ks ls : List (Option Keyword)) :
    isWaiting waiting (ks ++ ls) = isWaiting (isWaiting waiting ks) ls := by
  induction ks generalizing waiting with
  | nil => rfl
  | cons k rest ih =>
    simp only [List.cons_append, isWaiting]
    split_ifs <;> exact ih _

theorem isWhole_append (waiting : Bool) (ks ls : List (Option Keyword)) :
    isWhole waiting (ks ++ ls) = (isWhole waiting ks && isWhole (isWaiting waiting ks) ls) := by
  induction ks generalizing waiting with
  | nil => rfl
  | cons k rest ih =>
    simp only [List.cons_append, isWaiting, isWhole]
    split_ifs
    · rw [ih, Bool.and_assoc]
    · exact ih _
    · exact ih _

end Laws

/-! ## Laws of the meaning -/

/-- No `OR` stands outside of parentheses, and no `BETWEEN` waits for its `AND`: tokens that may stand
beside an `AND`. -/
structure Plain (ts : List Token) : Prop where
  noOr : ∀ t ∈ ts, t.keyword? ≠ some .or
  settled : isWaiting false (ts.map Token.keyword?) = false

/-- What is read as one atom: no connective cuts it, it is not negated and not in parentheses. -/
structure IsAtom (ts : List Token) : Prop extends Plain ts where
  whole : isWhole false (ts.map Token.keyword?) = true
  bare : ∀ content, ts ≠ [Token.group content]
  positive : ∀ rest, ts = Token.keyword .not :: rest → ∃ more, rest = Token.keyword .isIn :: more

variable {σ : List Token → Truth} {ts us : List Token}

theorem itemsOf_eq_map (ts : List Token) : itemsOf σ ts = ts.map fun t => ⟨t, t.inside σ⟩ := by
  induction ts with
  | nil => rfl
  | cons t rest ih => rw [itemsOf, ih, List.map_cons]

theorem map_token_itemsOf (ts : List Token) : (itemsOf σ ts).map Item.token = ts := by
  rw [itemsOf_eq_map, List.map_map]
  exact List.map_id ts

theorem map_keyword?_itemsOf (ts : List Token) :
    (itemsOf σ ts).map Item.keyword? = ts.map Token.keyword? := by
  rw [itemsOf_eq_map, List.map_map]
  rfl

/-- Tokens joined by `OR` mean the disjunction. -/
theorem truth_or (ts us : List Token) :
    truth σ (ts ++ Token.keyword .or :: us) = (truth σ ts).or (truth σ us) := by
  have split := splitOr_append Item.keyword? (x := ⟨Token.keyword .or, .unknown⟩) rfl
    (itemsOf σ ts) (itemsOf σ us)
  have items : itemsOf σ (ts ++ Token.keyword .or :: us)
      = itemsOf σ ts ++ ⟨Token.keyword .or, .unknown⟩ :: itemsOf σ us := by
    simp only [itemsOf_eq_map, List.map_append, List.map_cons]
    rfl
  rw [truth, readItems, items, split, List.map_append, Truth.any_append]
  rfl

/-- Plain tokens have the meaning of a conjunction. -/
theorem truth_of_noOr (h : ∀ t ∈ ts, t.keyword? ≠ some .or) :
    truth σ ts = readConjunction σ (itemsOf σ ts) := by
  have one : splitOr Item.keyword? (itemsOf σ ts) = [itemsOf σ ts] := by
    apply splitOr_of_forall Item.keyword?
    intro i hi
    rw [itemsOf_eq_map, List.mem_map] at hi
    obtain ⟨t, ht, rfl⟩ := hi
    exact h t ht
  rw [truth, readItems, one, List.map_singleton, Truth.any_cons, Truth.any_nil, Truth.or_false]

theorem Plain.and (ht : Plain ts) (hu : Plain us) : Plain (ts ++ Token.keyword .and :: us) where
  noOr := by
    intro t mem
    rcases List.mem_append.mp mem with mem | mem
    · exact ht.noOr t mem
    · rcases List.mem_cons.mp mem with rfl | mem
      · decide
      · exact hu.noOr t mem
  settled := by
    rw [List.map_append, List.map_cons, isWaiting_append, ht.settled]
    exact hu.settled

/-- Plain tokens joined by `AND` mean the conjunction. -/
theorem truth_and (ht : Plain ts) (hu : Plain us) :
    truth σ (ts ++ Token.keyword .and :: us) = (truth σ ts).and (truth σ us) := by
  have split := splitAnd_append Item.keyword? (x := ⟨Token.keyword .and, .unknown⟩) rfl false
    (itemsOf σ ts) (itemsOf σ us) (by rw [map_keyword?_itemsOf, ht.settled])
  have items : itemsOf σ (ts ++ Token.keyword .and :: us)
      = itemsOf σ ts ++ ⟨Token.keyword .and, .unknown⟩ :: itemsOf σ us := by
    simp only [itemsOf_eq_map, List.map_append, List.map_cons]
    rfl
  rw [truth_of_noOr (ht.and hu).noOr, truth_of_noOr ht.noOr, truth_of_noOr hu.noOr, readConjunction,
    items, split, List.map_append, Truth.all_append]
  rfl

/-- Parentheses do not change the meaning of what they hold. -/
theorem truth_group (ts : List Token) : truth σ [Token.group ts] = truth σ ts := by
  change ((truth σ ts).and .true).or .false = truth σ ts
  rw [Truth.and_true, Truth.or_false]

/-- `NOT` in front of parentheses negates. -/
theorem truth_not_group (ts : List Token) :
    truth σ [Token.keyword .not, Token.group ts] = (truth σ ts).not := by
  change ((truth σ ts).not.and .true).or .false = (truth σ ts).not
  rw [Truth.and_true, Truth.or_false]

/-- An atom means what the valuation says. -/
theorem truth_atom (h : IsAtom ts) : truth σ ts = σ ts := by
  have one : splitAnd Item.keyword? false (itemsOf σ ts) = [itemsOf σ ts] := by
    apply splitAnd_of_isWhole
    rw [map_keyword?_itemsOf, h.whole]
  have factor : readFactor σ (itemsOf σ ts) = σ ts := by
    unfold readFactor
    split
    · next i j rest items =>
      have tokens := map_token_itemsOf (σ := σ) ts
      rw [items] at tokens
      rw [← tokens]
      rfl
    · next i rest notIn items =>
      -- A `NOT` in front of an atom is followed by `IN`.
      have tokens := map_token_itemsOf (σ := σ) ts
      rw [items] at tokens
      obtain ⟨more, hmore⟩ := h.positive (rest.map Item.token) tokens.symm
      cases rest with
      | nil => cases hmore
      | cons second rest =>
        obtain ⟨token, inside⟩ := second
        simp only [List.map_cons, List.cons.injEq] at hmore
        exact absurd (by rw [hmore.1]) (notIn inside rest)
    · next content inside items =>
      have tokens := map_token_itemsOf (σ := σ) ts
      rw [items] at tokens
      exact absurd tokens.symm (h.bare content)
    · rw [map_token_itemsOf]
  rw [truth_of_noOr h.noOr, readConjunction, one, List.map_singleton, Truth.all_cons, factor,
    Truth.all_nil, Truth.and_true]

end TableQuery

import TableQuery.Proofs.Sql.Row

/-!
# Patterns

`LIKE` matches a text with a pattern, in which `%` stands for any bytes, `_` for any one byte, and a byte after the
mark of the `ESCAPE` clause for itself. A byte matches itself, or what the keyword of the condition takes for the same,
such as the letter in the other case. So a pattern has a meaning apart from the text that made it, and an escaped
text can be asked what it matches.

## What is proved

`Pattern.parts?_escape`: an escaped text is read as its own bytes, whatever they are.
`Operator.likes_patternOf`: the patterns of the operators that look for a text match just the texts that contain it,
begin with it or end with it. `Operator.keeps_text`: so these operators keep the rows in whose value they find it.
-/

namespace TableQuery

namespace Pattern

/-! ## The meaning of a pattern -/

/-- A part of a pattern. -/
inductive Part where
  /-- Any bytes, or none. -/
  | run
  /-- Any one byte. -/
  | any
  | byte (b : UInt8)
deriving Repr, DecidableEq

/-- The part that a byte is where no mark comes before it. -/
def Part.ofByte (b : UInt8) : Part :=
  if b = Ascii.percent then run else if b = Ascii.underscore then any else byte b

/-- The parts of a pattern in which a mark escapes the byte after it; none if the mark comes last. -/
def parts? (mark : UInt8) : (escaped : Bool) → Bytes → Option (List Part)
  | false, [] => some []
  | true, [] => none
  | true, b :: rest => (parts? mark false rest).map (.byte b :: ·)
  | false, b :: rest =>
    if b = mark then parts? mark true rest else (parts? mark false rest).map (Part.ofByte b :: ·)

/-- Whether a text is made of the parts; a run is tried at every length. Two bytes match if they fold to the same. -/
def accepts (fold : UInt8 → UInt8) : List Part → Bytes → Bool
  | [], text => text.isEmpty
  | .run :: parts, text => text.tails.any fun rest => accepts fold parts rest
  | .any :: parts, text =>
    match text with
    | [] => false
    | _ :: rest => accepts fold parts rest
  | .byte b :: parts, text =>
    match text with
    | [] => false
    | a :: rest => fold a == fold b && accepts fold parts rest

/-- Whether a pattern matches a text. -/
def likes (mark : UInt8) (fold : UInt8 → UInt8) (pattern text : Bytes) : Bool :=
  (parts? mark false pattern).any fun parts => accepts fold parts text

/-! ## Escaped texts -/

/-- An escaped text is read as its own bytes, in front of whatever follows. -/
theorem parts?_escape (s rest : Bytes) :
    parts? escapeMark false (escape s ++ rest)
      = (parts? escapeMark false rest).map (s.map Part.byte ++ ·) := by
  induction s with
  | nil => simp [escape]
  | cons b s ih =>
    have step : escape (b :: s) = (if isSpecial b then [escapeMark, b] else [b]) ++ escape s := rfl
    have both (parts : Option (List Part)) :
        (parts.map (s.map Part.byte ++ ·)).map (Part.byte b :: ·) = parts.map ((b :: s).map Part.byte ++ ·) := by
      rw [Option.map_map]
      rfl
    rw [step]
    by_cases special : isSpecial b = true
    · rw [if_pos special, ← both, ← ih]
      simp only [List.cons_append, List.nil_append, parts?, if_true]
    · rw [if_neg special, ← both, ← ih]
      simp only [isSpecial, Bool.or_eq_true, beq_iff_eq, not_or] at special
      obtain ⟨⟨percent, underscore⟩, mark⟩ := special
      simp only [List.cons_append, List.nil_append, parts?, Part.ofByte, if_neg percent, if_neg underscore, if_neg mark]

section Accepts

variable {fold : UInt8 → UInt8} {parts : List Part} {s text : Bytes}

theorem accepts_nil : accepts fold [] text = true ↔ text = [] := by
  rw [accepts, List.isEmpty_iff]

/-- A run takes up what comes before the rest of a text. -/
theorem accepts_run : accepts fold (.run :: parts) text = true ↔ ∃ rest, rest <:+ text ∧ accepts fold parts rest = true := by
  rw [accepts, List.any_eq_true]
  simp only [List.mem_tails]

theorem accepts_run_nil : accepts fold [.run] text = true :=
  accepts_run.mpr ⟨[], List.nil_suffix, rfl⟩

/-- Bytes are matched one by one, and the rest of the text by the rest of the parts. -/
theorem accepts_bytes :
    accepts fold (s.map .byte ++ parts) text = true
      ↔ ∃ front rest, text = front ++ rest ∧ front.map fold = s.map fold ∧ accepts fold parts rest = true := by
  induction s generalizing text with
  | nil => simp
  | cons b s ih =>
    cases text with
    | nil => simp [accepts]
    | cons a text =>
      rw [List.map_cons, List.cons_append, accepts, Bool.and_eq_true, beq_iff_eq, ih]
      constructor
      · rintro ⟨same, front, rest, rfl, front_eq, rest_ok⟩
        exact ⟨a :: front, rest, rfl, by rw [List.map_cons, List.map_cons, same, front_eq], rest_ok⟩
      · rintro ⟨front, rest, split, front_eq, rest_ok⟩
        cases front with
        | nil => cases front_eq
        | cons a' front =>
          obtain ⟨rfl, rfl⟩ := List.cons.inj split
          obtain ⟨same, front_eq⟩ := List.cons.inj front_eq
          exact ⟨same, front, rest, rfl, front_eq, rest_ok⟩

theorem accepts_bytes_run : accepts fold (s.map .byte ++ [Part.run]) text = true ↔ s.map fold <+: text.map fold := by
  rw [accepts_bytes]
  constructor
  · rintro ⟨front, rest, rfl, same, -⟩
    rw [List.map_append, same]
    exact List.prefix_append _ _
  · rintro ⟨rest, split⟩
    obtain ⟨front, rest, rfl, same, -⟩ := List.map_eq_append_iff.mp split.symm
    exact ⟨front, rest, rfl, same, accepts_run_nil⟩

theorem accepts_bytes_nil : accepts fold (s.map .byte) text = true ↔ text.map fold = s.map fold := by
  rw [← List.append_nil (s.map Part.byte), accepts_bytes]
  constructor
  · rintro ⟨front, rest, rfl, same, nothing⟩
    rw [accepts_nil.mp nothing, List.append_nil, same]
  · intro same
    exact ⟨text, [], (List.append_nil _).symm, same, rfl⟩

theorem accepts_run_bytes : accepts fold (.run :: s.map .byte) text = true ↔ s.map fold <:+ text.map fold := by
  rw [accepts_run]
  constructor
  · rintro ⟨rest, suffix, same⟩
    rw [← accepts_bytes_nil.mp same]
    exact suffix.map fold
  · rintro ⟨front, split⟩
    obtain ⟨front, rest, rfl, -, same⟩ := List.map_eq_append_iff.mp split.symm
    exact ⟨rest, List.suffix_append _ _, accepts_bytes_nil.mpr same⟩

theorem accepts_run_bytes_run :
    accepts fold (.run :: (s.map .byte ++ [Part.run])) text = true ↔ s.map fold <:+: text.map fold := by
  rw [accepts_run]
  constructor
  · rintro ⟨rest, suffix, found⟩
    exact (accepts_bytes_run.mp found).isInfix.trans (suffix.map fold).isInfix
  · rintro ⟨front, rest, split⟩
    rw [List.append_assoc] at split
    obtain ⟨front, found, rfl, -, there⟩ := List.map_eq_append_iff.mp split.symm
    have starts : accepts fold (s.map .byte ++ [Part.run]) found = true := by
      rw [accepts_bytes_run, there]
      exact List.prefix_append _ _
    exact ⟨found, List.suffix_append _ _, starts⟩

end Accepts

/-! ## The patterns of operators -/

section Likes

variable (fold : UInt8 → UInt8) (s text : Bytes)

theorem likes_contains :
    likes escapeMark fold (Ascii.percent :: (escape s ++ [Ascii.percent])) text = true
      ↔ s.map fold <:+: text.map fold := by
  rw [← accepts_run_bytes_run]
  unfold likes
  rw [parts?, if_neg (by decide), parts?_escape]
  rfl

theorem likes_startsWith :
    likes escapeMark fold (escape s ++ [Ascii.percent]) text = true ↔ s.map fold <+: text.map fold := by
  rw [← accepts_bytes_run]
  unfold likes
  rw [parts?_escape]
  rfl

theorem likes_endsWith :
    likes escapeMark fold (Ascii.percent :: escape s) text = true ↔ s.map fold <:+ text.map fold := by
  rw [← accepts_run_bytes]
  unfold likes
  rw [parts?, if_neg (by decide), ← List.append_nil (escape s), parts?_escape, parts?, Option.map_some,
    List.append_nil]
  rfl

end Likes

end Pattern

namespace Operator

/-- The operators that look for a text. -/
inductive LooksForText : Operator → Prop where
  | contains : LooksForText contains
  | startsWith : LooksForText startsWith
  | endsWith : LooksForText endsWith

/-- Whether an operator finds the text that it looks for: anywhere, at the beginning or at the end. -/
def Finds (op : Operator) (fold : UInt8 → UInt8) (s text : Bytes) : Prop :=
  match op with
  | contains => s.map fold <:+: text.map fold
  | startsWith => s.map fold <+: text.map fold
  | endsWith => s.map fold <:+ text.map fold
  | _ => False

/-- The pattern that an operator makes of a text: the text, escaped, with a run where more may stand. -/
def patternOf (op : Operator) (s : Bytes) : Bytes :=
  match op with
  | contains => Ascii.percent :: (Pattern.escape s ++ [Ascii.percent])
  | startsWith => Pattern.escape s ++ [Ascii.percent]
  | endsWith => Ascii.percent :: Pattern.escape s
  | _ => s

theorem apply_text {op : Operator} (looks : op.LooksForText) (column : Fragment) (s : Bytes) (d : Dialect)
    (field : Bytes) : op.apply column (.str s) d field = .ok (Pattern.condition column d (op.patternOf s)) := by
  cases looks <;> rfl

/-- The pattern of an operator matches just the texts where the operator finds its own. -/
theorem likes_patternOf {op : Operator} (looks : op.LooksForText) (fold : UInt8 → UInt8) (s text : Bytes) :
    Pattern.likes Pattern.escapeMark fold (op.patternOf s) text = true ↔ op.Finds fold s text := by
  cases looks with
  | contains => exact Pattern.likes_contains fold s text
  | startsWith => exact Pattern.likes_startsWith fold s text
  | endsWith => exact Pattern.likes_endsWith fold s text

end Operator

/-! ## The rows that a pattern keeps -/

/-- A row that matches its own texts with patterns; what is no text is matched by none. Each of the two keywords has
its own way of taking bytes for the same. -/
def Row.withPatterns (fold : Keyword → UInt8 → UInt8) (ρ : Row) : Row where
  value := ρ.value
  other := fun ts =>
    match ts.span Token.isOperand with
    | (e, [.keyword k, .slot (some (.str pattern)), .keyword .escape, .quoted _ [mark]]) =>
      if k = .like ∨ k = .ilike then
        match ρ.value e with
        | .str text => .ofBool (Pattern.likes mark (fold k) pattern text)
        | _ => .unknown
      else ρ.other ts
    | _ => ρ.other ts

namespace Row

variable {strict : Prop} {fold : Keyword → UInt8 → UInt8} {c : Collation} {ρ : Row} {f : Fragment}

@[simp] theorem value_withPatterns : (ρ.withPatterns fold).value = ρ.value := rfl

/-- The tokens of a match with a pattern. -/
def patternTest (e : List Token) (k : Keyword) (pattern : Bytes) (quote mark : UInt8) : List Token :=
  e ++ [Token.keyword k, Token.slot (some (.str pattern)), Token.keyword .escape, Token.quoted quote [mark]]

/-- What a row says of a match with a pattern, whose mark is read from the text. -/
theorem atom_pattern {e : List Token} (he : e.all Token.isOperand = true) {k : Keyword} (hk : k = .like ∨ k = .ilike)
    (pattern : Bytes) (quote mark : UInt8) :
    (ρ.withPatterns fold).atom c (patternTest e k pattern quote mark) = .true
      ↔ ∃ text, ρ.value e = .str text ∧ Pattern.likes mark (fold k) pattern text = true := by
  have ends : (Token.keyword k).isOperand = false := by
    rcases hk with rfl | rfl <;> rfl
  have other : (ρ.withPatterns fold).atom c (patternTest e k pattern quote mark)
      = (ρ.withPatterns fold).other (patternTest e k pattern quote mark) := by
    rw [atom, patternTest, span_operand he ends]
    rcases hk with rfl | rfl <;> cases e <;> rfl
  rw [other, withPatterns, patternTest]
  dsimp only
  rw [span_operand he ends]
  dsimp only
  rw [if_pos hk]
  cases ρ.value e with
  | str text => simp
  | null | bool _ | int _ | float _ | arr _ | obj _ => simp

/-- A row is kept by a pattern if its value is a text that the pattern matches. -/
theorem keeps_pattern (hf : f.IsOperand strict) (d : Dialect) (pattern : Bytes) :
    (Pattern.condition f d pattern).Keeps ((ρ.withPatterns fold).atom c)
      ↔ f.Aligned ∧ ∃ text, ρ.value f.bound = .str text
        ∧ Pattern.likes Pattern.escapeMark (fold (Operator.patternKeyword d)) pattern text = true := by
  have spells := Operator.spells_pattern hf d pattern
  have params : (Pattern.condition f d pattern).params = f.params ++ [.str pattern] := rfl
  have keyword : Operator.patternKeyword d = .like ∨ Operator.patternKeyword d = .ilike := by
    cases d <;> decide
  rw [(Operator.isTest_pattern hf d pattern).keeps_iff_bound, Fragment.aligned_after spells [.str pattern] params rfl]
  refine and_congr_right fun aligned => ?_
  rw [Fragment.bound_after aligned spells params]
  exact atom_pattern (isOperand_bound hf) keyword pattern _ _

end Row

/-- An operator that looks for a text keeps the rows in whose value it finds it. -/
theorem Operator.keeps_text {op : Operator} (looks : op.LooksForText) {fold : Keyword → UInt8 → UInt8} {c : Collation}
    {ρ : Row} {column : Fragment} (operand : column.IsOperand True) (d : Dialect) (s : Bytes) :
    (Pattern.condition column d (op.patternOf s)).Keeps ((ρ.withPatterns fold).atom c)
      ↔ ∃ text, ρ.value column.bound = .str text ∧ op.Finds (fold (patternKeyword d)) s text := by
  have aligned : column.Aligned := operand.spells.tight trivial
  rw [Row.keeps_pattern operand, and_iff_right aligned]
  exact exists_congr fun text => and_congr_right fun _ => likes_patternOf looks _ s text

end TableQuery

import TableQuery.Proofs.Sql.Operand
import TableQuery.Proofs.Text.Cut

/-!
# Operands of a description

The expressions that a description gives rise to: dotted names, and trusted SQL. A name is quoted part by
part, so whatever bytes it has it reads as quoted parts with dots between them. Trusted SQL is put in
parentheses as it is, so it reads as one operand just if it closes what it opens (`TrustedSql.Closes`). A cast
of either is an operand again.
-/

namespace TableQuery

variable {strict : Prop}

/-! ## Names -/

/-- The tokens of a dotted name, its parts being given. -/
def dottedTokens (quote : UInt8) : List Bytes → List Token
  | [] => []
  | [name] => [.quoted quote name]
  | name :: next :: names => .quoted quote name :: .mark Ascii.dot :: dottedTokens quote (next :: names)

theorem lexes_dotted (d : Dialect) (name : Bytes) (names : List Bytes) :
    Lexes (Bytes.join [Ascii.dot] ((name :: names).map d.quoteName)) (dottedTokens d.nameQuote (name :: names)) := by
  induction names generalizing name with
  | nil =>
    have alone : Bytes.join [Ascii.dot] [d.quoteName name] = d.quoteName name := by
      simp [Bytes.join, List.intercalate]
    rw [List.map_singleton, alone]
    exact lexes_quoteName d name
  | cons next names ih =>
    have dot : Opens [Ascii.dot] [Token.mark Ascii.dot] := opens_of_scan rfl
    have whole := ((lexes_quoteName d name).opens rfl dot).append (ih next)
    rw [List.map_cons, dottedTokens]
    simpa [Bytes.join, List.intercalate] using whole

theorem isOperand_dotted (quote : UInt8) (names : List Bytes) :
    (dottedTokens quote names).all Token.isOperand = true := by
  induction names using dottedTokens.induct with
  | case1 => rfl
  | case2 => rfl
  | case3 name next names ih => exact ih

theorem slotsOf_dotted (quote : UInt8) (names : List Bytes) : slotsOf (dottedTokens quote names) = 0 := by
  induction names using dottedTokens.induct with
  | case1 => rfl
  | case2 => rfl
  | case3 name next names ih => rw [dottedTokens, slotsOf, slotsOf, ih]; rfl

theorem Fragment.spells_identifier (d : Dialect) (dotted : Bytes) :
    (Fragment.identifier d dotted).Spells strict (dottedTokens d.nameQuote (Bytes.splitOn Ascii.dot dotted)) := by
  obtain ⟨name, names, split⟩ := List.exists_cons_of_ne_nil (Bytes.splitOn_ne_nil Ascii.dot dotted)
  apply Fragment.Spells.text _ (slotsOf_dotted _ _)
  rw [Dialect.quoteIdentifier, split]
  exact lexes_dotted d name names

/-- A quoted name is an operand, whatever the name is. -/
theorem Fragment.isOperand_identifier (d : Dialect) (dotted : Bytes) :
    (Fragment.identifier d dotted).IsOperand strict :=
  (Fragment.spells_identifier d dotted).isOperand (isOperand_dotted _ _) rfl

theorem Fragment.isOperand_value (v : Json) : (Fragment.value v).IsOperand strict :=
  (Fragment.Spells.value v).isOperand rfl rfl

/-! ## Trusted SQL -/

/-- The text closes every quote and every parenthesis that it opens; with `strict` it has no placeholder
either, for which it could have no value. -/
def TrustedSql.Closes (strict : Prop) (t : TrustedSql) : Prop :=
  ∃ ts, Lexes t.sql ts ∧ (strict → slotsOf ts = 0)

theorem Fragment.spells_trusted {t : TrustedSql} (h : t.Closes strict) :
    ∃ ts, (Fragment.trusted t).Spells strict [Token.group ts] := by
  obtain ⟨ts, lexes, none⟩ := h
  exact ⟨ts, (Lexes.group lexes).lexes, Nat.zero_le _, none⟩

theorem Fragment.isOperand_trusted {t : TrustedSql} (h : t.Closes strict) :
    (Fragment.trusted t).IsOperand strict := by
  obtain ⟨ts, text⟩ := Fragment.spells_trusted h
  exact text.isOperand rfl rfl

/-! ## Casts -/

/-- The tokens of a cast to text. -/
def castTokens (d : Dialect) (expression : List Token) : List Token :=
  [.word "CAST", .group (expression ++ [.word "AS", .word d.textType])]

/-- The tokens of an operand cast to text. -/
theorem Fragment.Spells.castText {e : Fragment} {ts : List Token} (he : e.Spells strict ts) (d : Dialect) :
    ((((Fragment.text "CAST(" ++ e).add " AS ").add d.textType).add ")").Spells strict (castTokens d ts) := by
  have cast : Lexes "CAST" [Token.word "CAST"] := lex_eq_some_iff.mp rfl
  have type : Lexes (Bytes.ofString " AS " ++ d.textType) [Token.word "AS", Token.word d.textType] := by
    cases d <;> exact lex_eq_some_iff.mp rfl
  apply ((he.add rfl type rfl).call cast rfl).of_eq
  · simp only [Fragment.sql_add, Fragment.sql_append, Fragment.text, List.append_assoc]
    rfl
  · rfl

/-- An operand cast to text is an operand. -/
theorem Fragment.isOperand_castText (d : Dialect) {e : Fragment} (he : e.IsOperand strict) :
    ((((Fragment.text "CAST(" ++ e).add " AS ").add d.textType).add ")").IsOperand strict :=
  (he.spells.castText d).isOperand rfl rfl

end TableQuery

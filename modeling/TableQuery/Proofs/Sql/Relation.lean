import TableQuery.Proofs.Sql.Alike
import TableQuery.Proofs.Sql.Identifier
import TableQuery.Proofs.Sql.Listed

/-!
# Tables, and what a selection reads of their rows

A selection ranges over tables, each under a name of its own, and names columns of them: a table's name, a dot, a
column's name. A database looks these names up before it reads a row, and refuses the selection if one of them is not
the name of one column (`namesIn`, `knows`). On the rows at hand a named column has its value there, a numeral is a
number, `+` adds two integers, and a condition is one of the three truth values. What any other expression or condition
is, a cast for one, the database tells as a whole (`Database`).

## What is proved

`valueIn_append` and `valueIn_next`: columns added to a row leave the values before them as they were, and have their
own.

`Operator.spells_apply`: what an operator makes of an operand names what the operand names, and nothing else.

`verdict_isNull`, `verdict_equal` and `verdict_below`: what the conditions of a recursive table say of the rows at hand.
-/

namespace TableQuery

/-! ## Rows -/

/-- A table: the names of its columns, and rows with a value for each of them. -/
structure Relation where
  columns : List Bytes
  rows : List (List Json)

/-- The value of a row in a column; null if there is none. -/
def valueIn (columns : List Bytes) (row : List Json) (column : Bytes) : Json :=
  ((columns.zip row).lookup column).getD .null

section Values

variable {columns more : List Bytes} {row rest : List Json} {column : Bytes}

theorem lookup_zip (length : columns.length = row.length) :
    ((columns ++ more).zip (row ++ rest)).lookup column
      = ((columns.zip row).lookup column).or ((more.zip rest).lookup column) := by
  rw [List.zip_append length, List.lookup_append]

theorem valueIn_append (length : columns.length = row.length) (mem : column ∈ columns) :
    valueIn (columns ++ more) (row ++ rest) column = valueIn columns row column := by
  have found : ((columns.zip row).lookup column).isSome = true := by
    rw [List.lookup_isSome_iff]
    obtain ⟨i, bound, rfl⟩ := List.getElem_of_mem mem
    have inside : i < (columns.zip row).length := by
      rw [List.length_zip, ← length, Nat.min_self]
      exact bound
    refine ⟨(columns.zip row)[i], List.getElem_mem inside, ?_⟩
    rw [List.getElem_zip]
    exact beq_self_eq_true _
  obtain ⟨v, hv⟩ := Option.isSome_iff_exists.mp found
  rw [valueIn, valueIn, lookup_zip length, hv]
  rfl

theorem valueIn_next (length : columns.length = row.length) (fresh : column ∉ columns) (v : Json) :
    valueIn (columns ++ column :: more) (row ++ v :: rest) column = v := by
  have none : (columns.zip row).lookup column = none := by
    rw [List.lookup_eq_none_iff]
    intro pair mem
    exact bne_iff_ne.mpr fun same => fresh (same ▸ (List.of_mem_zip mem).1)
  rw [valueIn, lookup_zip length, none, List.zip_cons_cons, List.lookup_cons_self]
  rfl

end Values

/-- A row of a table that a selection ranges over, under the name that the selection has for the table. -/
structure RangeVar where
  name : Bytes
  columns : List Bytes
  row : List Json

/-- The value of a column of one of the tables. -/
def columnValue (vars : List RangeVar) (table column : Bytes) : Json :=
  match vars.find? fun v => v.name == table with
  | some v => valueIn v.columns v.row column
  | none => .null

/-! ## Tokens of a selection -/

namespace Token

/-- Whether a token is this word, in any case. -/
def isWord (word : Bytes) : Token → Bool
  | .word text => Bytes.toUpper text == word
  | _ => false

/-- Whether a token is this sign. -/
def isSign (sign : Bytes) : Token → Bool
  | .sign text => text == sign
  | _ => false

end Token

/-- The tokens before and after the first one that meets a test; none if there is no such token. -/
def cutAt (p : Token → Bool) : List Token → Option (List Token × List Token)
  | [] => none
  | t :: rest => if p t then some ([], rest) else (cutAt p rest).map fun (before, after) => (t :: before, after)

section Cutting

variable {p : Token → Bool} {before after : List Token} {t : Token}

theorem cutAt_append (none : before.all (fun u => !p u) = true) (ht : p t = true) :
    cutAt p (before ++ t :: after) = some (before, after) := by
  induction before with
  | nil => rw [List.nil_append, cutAt, if_pos ht]
  | cons u before ih =>
    rw [List.all_cons, Bool.and_eq_true, Bool.not_eq_true'] at none
    rw [List.cons_append, cutAt, if_neg (Bool.eq_false_iff.mp none.1), ih none.2]
    rfl

end Cutting

/-! ## Names -/

/-- Whether a name goes on after a dot. -/
def goesOn : List Token → Bool
  | .mark Ascii.dot :: _ => true
  | _ => false

mutual

/-- The dotted names in a token. -/
def Token.names : Token → List (List Bytes)
  | .group content => namesIn content
  | _ => []

/-- The dotted names in tokens. What stands between single quotes is a value. -/
def namesIn : List Token → List (List Bytes)
  | [] => []
  | .quoted q name :: rest =>
    if q = Ascii.quote then namesIn rest
    else if goesOn rest then (namesIn rest).modifyHead (name :: ·)
    else [name] :: namesIn rest
  | t :: rest => t.names ++ namesIn rest

end

/-- Whether a dotted name is the name of one column, the tables of a selection having these names and columns. -/
def knows (tables : List (Bytes × List Bytes)) : List Bytes → Bool
  | [table, column] => tables.any fun (name, columns) => name == table && columns.count column == 1
  | _ => false

section Known

variable {tables : List (Bytes × List Bytes)} {table column : Bytes}

/-- A dot in a column's name cuts it, so the name is of three parts or more. -/
theorem knows_splitOn :
    knows tables (table :: Bytes.splitOn Ascii.dot column) = true
      ↔ Ascii.dot ∉ column ∧ knows tables [table, column] = true := by
  by_cases dotted : Ascii.dot ∈ column
  · obtain ⟨a, b, more, split⟩ := Bytes.exists_splitOn_of_mem dotted
    rw [split]
    exact iff_of_false Bool.false_ne_true fun both => both.1 dotted
  · rw [Bytes.splitOn_of_notMem dotted]
    exact (and_iff_right dotted).symm

theorem knows_cons_self {columns : List Bytes} (fresh : table ∉ tables.map Prod.fst) :
    knows ((table, columns) :: tables) [table, column] = true ↔ columns.count column = 1 := by
  have others : tables.any (fun (name, columns) => name == table && columns.count column == 1) = false := by
    rw [List.any_eq_false]
    intro other mem both
    rw [Bool.and_eq_true, beq_iff_eq] at both
    exact fresh (List.mem_map.mpr ⟨other, mem, both.1⟩)
  rw [knows, List.any_cons, others, Bool.or_false]
  dsimp only
  rw [beq_self_eq_true, Bool.true_and, beq_iff_eq]

theorem knows_cons_of_ne {name : Bytes} {columns : List Bytes} (other : name ≠ table) :
    knows ((name, columns) :: tables) [table, column] = knows tables [table, column] := by
  rw [knows, List.any_cons]
  dsimp only
  rw [beq_eq_false_iff_ne.mpr other, Bool.false_and, Bool.false_or, knows]

end Known

mutual

/-- Whether a token has no word and no name. -/
def Token.isNameless : Token → Bool
  | .keyword _ | .sign _ | .slot _ => true
  | .quoted q _ => q == Ascii.quote
  | .mark b => b == Ascii.comma
  | .group content => areNameless content
  | .word _ => false

/-- Whether there is no word and no name in tokens. -/
def areNameless : List Token → Bool
  | [] => true
  | t :: rest => t.isNameless && areNameless rest

end

mutual

theorem Token.isNameless_fill (values : List Json) (t : Token) : (t.fill values).isNameless = t.isNameless := by
  cases t with
  | group content => exact areNameless_fillAll values content
  | _ => rfl

/-- Binding values brings no word and no name. -/
theorem areNameless_fillAll (values : List Json) (ts : List Token) :
    areNameless (fillAll values ts) = areNameless ts := by
  cases ts with
  | nil => rfl
  | cons t rest =>
    rw [fillAll, areNameless, areNameless, Token.isNameless_fill, areNameless_fillAll]

end

theorem not_isWord_of_areNameless {ts : List Token} (h : areNameless ts = true) (word : Bytes) :
    ts.all (fun t => !t.isWord word) = true := by
  induction ts with
  | nil => rfl
  | cons t rest ih =>
    rw [areNameless, Bool.and_eq_true] at h
    rw [List.all_cons, ih h.2, Bool.and_true]
    cases t with
    | word text => cases h.1
    | _ => rfl

mutual

theorem Token.names_of_isNameless {t : Token} (h : t.isNameless = true) : t.names = [] := by
  cases t with
  | group content => exact namesIn_of_areNameless h
  | _ => rfl

theorem namesIn_of_areNameless {ts : List Token} (h : areNameless ts = true) : namesIn ts = [] := by
  cases ts with
  | nil => rfl
  | cons t rest =>
    rw [areNameless, Bool.and_eq_true] at h
    have tail := namesIn_of_areNameless h.2
    have head := Token.names_of_isNameless h.1
    cases t with
    | quoted q name => rw [namesIn, if_pos (beq_iff_eq.mp h.1), tail]
    | _ => rw [namesIn, tail, head, List.append_nil]; exact nofun

end

/-- A dotted name that tokens begin with is the first name in them. -/
theorem namesIn_dotted {q : UInt8} (hq : q ≠ Ascii.quote) (name : Bytes) (names : List Bytes) {ts : List Token}
    (ends : goesOn ts = false) : namesIn (dottedTokens q (name :: names) ++ ts) = (name :: names) :: namesIn ts := by
  induction names generalizing name with
  | nil => rw [dottedTokens, List.singleton_append, namesIn, if_neg hq, ends, if_neg Bool.false_ne_true]
  | cons next names ih =>
    have after : namesIn (.mark Ascii.dot :: (dottedTokens q (next :: names) ++ ts))
        = (next :: names) :: namesIn ts := by
      rw [← ih next, namesIn]
      · rfl
      · intro _ _ quoted
        cases quoted
    rw [dottedTokens, List.cons_append, List.cons_append, namesIn, if_neg hq, if_pos (by rfl), after]
    rfl

theorem not_isWord_dotted (q : UInt8) (names : List Bytes) (word : Bytes) :
    (dottedTokens q names).all (fun t => !t.isWord word) = true := by
  induction names using dottedTokens.induct with
  | case1 => rfl
  | case2 => rfl
  | case3 name next names ih => exact ih

theorem goesOn_of_not_isOperand {t : Token} (h : t.isOperand = false) (ts : List Token) : goesOn (t :: ts) = false := by
  cases t with
  | mark b => cases h
  | _ => rfl

/-! ## Names in conditions -/

namespace Operator

/-- Whether an empty list decides a filter outright: nothing is in it. -/
def isOutright (op : Operator) : Json → Bool
  | .arr [] => op == .isIn || op == .notIn
  | _ => false

variable {strict : Prop} {e f : Fragment} {op : Operator} {value : Json} {d : Dialect} {field : Bytes}

theorem areNameless_list (values : List Json) :
    areNameless [Token.group (Token.slot none :: values.flatMap fun _ => [Token.mark Ascii.comma, Token.slot none])]
      = true := by
  change (areNameless _ && true) = true
  rw [Bool.and_true]
  induction values with
  | nil => rfl
  | cons v values ih => exact ih

theorem constant_of_isOutright (h : op.apply e value d field = .ok f) (outright : op.isOutright value = true) :
    f = .alwaysTrue ∨ f = .alwaysFalse := by
  unfold isOutright at outright
  split at outright
  · simp only [Bool.or_eq_true, beq_iff_eq] at outright
    obtain rfl | rfl := outright
    · cases h
      exact .inr rfl
    · cases h
      exact .inl rfl
  · cases outright

/-- What an operator makes of an operand is the operand and then tokens that name nothing, unless an empty list decides
the filter. -/
theorem spells_apply (he : e.IsOperand strict) (h : op.apply e value d field = .ok f)
    (asks : op.isOutright value = false) :
    ∃ t us, f.Spells strict (e.raw ++ t :: us) ∧ t.isOperand = false ∧ areNameless (t :: us) = true := by
  have sign {s : Bytes} (opens : Opens (spaced s) [.sign s]) : ∃ t us, (binary e s value).Spells strict
      (e.raw ++ t :: us) ∧ t.isOperand = false ∧ areNameless (t :: us) = true :=
    ⟨_, _, spells_binary opens rfl he value, rfl, rfl⟩
  have null : ∃ t us, (e.add " IS NULL").Spells strict (e.raw ++ t :: us) ∧ t.isOperand = false
      ∧ areNameless (t :: us) = true := ⟨_, _, spells_isNull he, rfl, rfl⟩
  have notNull : ∃ t us, (e.add " IS NOT NULL").Spells strict (e.raw ++ t :: us) ∧ t.isOperand = false
      ∧ areNameless (t :: us) = true := ⟨_, _, spells_isNotNull he, rfl, rfl⟩
  cases op with
  | eq =>
    cases h
    split_ifs
    · exact null
    · exact sign (opens_of_scan rfl)
  | neq =>
    cases h
    split_ifs
    · exact notNull
    · exact sign (opens_of_scan rfl)
  | gt | gte | lt | lte =>
    cases h
    exact sign (opens_of_scan rfl)
  | like =>
    cases h
    have opens : Opens (spaced "LIKE") [Token.keyword .like] := opens_of_scan rfl
    exact ⟨_, _, spells_binary opens rfl he value, rfl, rfl⟩
  | ilike =>
    obtain ⟨-, -, h⟩ := Checked.bind_eq_ok.mp h
    cases h
    have opens : Opens (spaced "ILIKE") [Token.keyword .ilike] := opens_of_scan rfl
    exact ⟨_, _, spells_binary opens rfl he value, rfl, rfl⟩
  | isIn =>
    obtain ⟨values, array, h⟩ := Checked.bind_eq_ok.mp h
    cases h
    obtain rfl := requireArray_eq_ok.mp array
    cases values with
    | nil => cases asks
    | cons v values =>
      have opens : Opens (spaced "IN") [Token.keyword .isIn] := opens_of_scan rfl
      exact ⟨_, _, spells_valueList opens rfl he v values, rfl, areNameless_list values⟩
  | notIn =>
    obtain ⟨values, array, h⟩ := Checked.bind_eq_ok.mp h
    cases h
    obtain rfl := requireArray_eq_ok.mp array
    cases values with
    | nil => cases asks
    | cons v values =>
      have opens : Opens (spaced "NOT IN") [Token.keyword .not, Token.keyword .isIn] := opens_of_scan rfl
      exact ⟨_, _, spells_valueList opens rfl he v values, rfl, areNameless_list values⟩
  | between =>
    obtain ⟨values, -, h⟩ := Checked.bind_eq_ok.mp h
    match values with
    | [low, high] =>
      cases h
      exact ⟨_, _, spells_between he low high, rfl, rfl⟩
    | [] | [_] | _ :: _ :: _ :: _ => cases h
  | isNull =>
    cases h
    exact null
  | isNotNull =>
    cases h
    exact notNull
  | contains | startsWith | endsWith =>
    obtain ⟨text, -, h⟩ := Checked.bind_eq_ok.mp h
    cases h
    exact ⟨_, _, spells_pattern he d _, by cases d <;> rfl, by cases d <;> rfl⟩

end Operator

/-! ## What a database says of rows -/

/-- A database, by what it makes of the expressions and conditions that the rows at hand do not settle alone, and of an
order. Integers compare as numbers. -/
structure Database where
  collation : Collation
  below_int : ∀ e m n, collation.below e (.int m) (.int n) = decide (m < n)
  value : List RangeVar → (expression : List Token) → Json
  other : List RangeVar → (condition : List Token) → Truth
  sort : (keys : List (List Token)) → Relation → List (List Json)
  sort_perm : ∀ keys table, (sort keys table).Perm table.rows

namespace Database

variable (db : Database) (vars : List RangeVar)

/-- The value of a column or of a numeral. -/
def term? : (expression : List Token) → Option Json
  | [.quoted _ table, .mark Ascii.dot, .quoted _ column] => some (columnValue vars table column)
  | [.word numeral] => (Numeral.integer? numeral).map .int
  | _ => none

/-- The value of an expression. -/
def eval (expression : List Token) : Json :=
  match cutAt (Token.isSign "+") expression with
  | some (left, right) =>
    match term? vars left, term? vars right with
    | some (.int m), some (.int n) => .int (m + n)
    | _, _ => db.value vars expression
  | none => (term? vars expression).getD (db.value vars expression)

/-- The rows at hand as one row: besides comparisons with a value it knows whether two expressions are equal. -/
def row : Row :=
  Row.withLists db.collation {
    value := db.eval vars
    other := fun ts =>
      match ts.span Token.isOperand with
      | (left, .sign [Ascii.equals] :: right) =>
        if right.all Token.isOperand then db.collation.equals left (db.eval vars left) (db.eval vars right)
        else db.other vars ts
      | _ => db.other vars ts }

/-- What the rows at hand make of the atoms of a condition. -/
def atoms : List Token → Truth := (db.row vars).atom db.collation

/-- What the rows at hand make of a condition. -/
def verdict (condition : List Token) : Truth := truth (db.atoms vars) condition

variable {db vars} {q : UInt8} {table column : Bytes}

theorem eval_plus {numeral : Bytes} {m n : Int} (hm : columnValue vars table column = .int m)
    (hn : Numeral.integer? numeral = some n) :
    db.eval vars (dottedTokens q [table, column] ++ [.sign [Ascii.plus], .word numeral]) = .int (m + n) := by
  have cut : cutAt (Token.isSign "+") (dottedTokens q [table, column] ++ [.sign [Ascii.plus], .word numeral])
      = some (dottedTokens q [table, column], [.word numeral]) := cutAt_append rfl rfl
  have left : term? vars (dottedTokens q [table, column]) = some (.int m) := congrArg some hm
  have right : term? vars [.word numeral] = some (.int n) := by
    change (Numeral.integer? numeral).map Json.int = _
    rw [hn]
    rfl
  rw [eval, cut]
  dsimp only
  rw [left, right]

theorem verdict_isNull (e : List Token) (he : e.all Token.isOperand = true) :
    db.verdict vars (e ++ [.keyword .is, .keyword .null]) = .ofBool (db.eval vars e).isNull := by
  have test : IsTest (e ++ [.keyword .is, .keyword .null]) :=
    ((IsTest.opening (.inl rfl)).append (rfl : [Token.keyword .null].all Token.isSteady = true)).after he
  rw [verdict, truth_atom test.toIsAtom, atoms, Row.atom_isNull he]
  rfl

/-- Two columns are equal if their values are; nulls are not. -/
theorem verdict_equal (table column table' column' : Bytes) :
    db.verdict vars (dottedTokens q [table, column] ++ .sign [Ascii.equals] :: dottedTokens q [table', column'])
      = db.collation.equals (dottedTokens q [table, column]) (columnValue vars table column)
        (columnValue vars table' column') := by
  have test : IsTest (dottedTokens q [table, column] ++ ([.sign [Ascii.equals]] ++ dottedTokens q [table', column'])) :=
    ((IsTest.sign [Ascii.equals]).append rfl).after rfl
  exact truth_atom test.toIsAtom

/-- A column with an integer is below a greater one. -/
theorem verdict_below {m n : Int} (h : columnValue vars table column = .int m) :
    db.verdict vars (dottedTokens q [table, column] ++ [.sign [0x3c], .slot (some (.int n))])
      = .ofBool (decide (m < n)) := by
  have test : IsTest (dottedTokens q [table, column] ++ [.sign [0x3c], .slot (some (.int n))]) :=
    ((IsTest.sign [0x3c]).append rfl).after rfl
  have value : (db.row vars).value (dottedTokens q [table, column]) = .int m := h
  rw [verdict, truth_atom test.toIsAtom]
  apply Row.atom_compare rfl
  rw [value, ← db.below_int (dottedTokens q [table, column])]
  rfl

end Database

end TableQuery

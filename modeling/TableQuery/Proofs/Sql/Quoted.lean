import TableQuery.Proofs.Sql.Identifier

/-!
# Quoted text, read back

Names and literals are written between quotes, and a quote inside them is written twice. A reader of SQL takes a quoted
token from its first byte up to a quote that no other quote follows, and takes two quotes in a row for one. `read?` is
this reader, for one token at the front of a text. `dotted?` reads a text that is nothing but quoted tokens with dots
between them.

The readers look at quotes and dots only and know nothing of how a token was written. Still, they accept exactly what is
written: the text of a token decides the token, and the token its text.

## What is proved

`Quoted.read?_eq_some_iff` and `Quoted.dotted?_eq_some_iff`: which texts the readers accept, and as what.
`Quoted.reads_back`: names, dotted names and literals are read back as they were before they were quoted.
-/

namespace TableQuery

variable {quote : UInt8} {text name rest : Bytes} {parts : List Bytes}

namespace Quoted

open Dialect (doubled between)

/-! ## One token -/

/-- What stands before the quote that ends a token, and what follows it. -/
def inside? (quote : UInt8) : Bytes → Option (Bytes × Bytes)
  | [] => none
  | [b] => if b = quote then some ([], []) else none
  | b :: c :: rest =>
    if b ≠ quote then (inside? quote (c :: rest)).map fun (text, rest) => (b :: text, rest)
    else if c = quote then (inside? quote rest).map fun (text, rest) => (quote :: text, rest)
    else some ([], c :: rest)

/-- What a quoted token at the front of a text quotes, and what follows it. -/
def read? (quote : UInt8) : Bytes → Option (Bytes × Bytes)
  | [] => none
  | b :: rest => if b = quote then inside? quote rest else none

theorem doubled_cons_self (quote : UInt8) (s : Bytes) :
    doubled quote (quote :: s) = quote :: quote :: doubled quote s := by
  simp [doubled]

theorem doubled_cons_of_ne {b : UInt8} (other : b ≠ quote) (s : Bytes) :
    doubled quote (b :: s) = b :: doubled quote s := by
  simp [doubled, other]

theorem inside?_cons_of_ne {b : UInt8} (other : b ≠ quote) (s : Bytes) :
    inside? quote (b :: s) = (inside? quote s).map fun (text, rest) => (b :: text, rest) := by
  cases s with
  | nil => simp [inside?, other]
  | cons c s => simp [inside?, other]

/-- Doubled quotes are read as one, up to a quote that stands alone. -/
theorem inside?_doubled (alone : rest.head? ≠ some quote) (s : Bytes) :
    inside? quote (doubled quote s ++ quote :: rest) = some (s, rest) := by
  induction s with
  | nil =>
    cases rest with
    | nil => simp [doubled, inside?]
    | cons c rest =>
      have other : c ≠ quote := by simpa using alone
      simp [doubled, inside?, other]
  | cons b s ih =>
    by_cases same : b = quote
    · subst same
      rw [doubled_cons_self, List.cons_append, List.cons_append, inside?]
      simp [ih]
    · rw [doubled_cons_of_ne same, List.cons_append, inside?_cons_of_ne same, ih]
      rfl

/-- What is read had its quotes doubled, and the quote after it stands alone. -/
theorem eq_of_inside? (read : inside? quote text = some (name, rest)) :
    text = doubled quote name ++ quote :: rest ∧ rest.head? ≠ some quote := by
  fun_induction inside? quote text generalizing name rest with
  | case1 => simp at read
  | case2 =>
    cases read
    simp [doubled]
  | case3 => simp at read
  | case4 b c more other ih =>
    obtain ⟨⟨inner, rest'⟩, found, eq⟩ := Option.map_eq_some_iff.mp read
    cases eq
    obtain ⟨whole, alone⟩ := ih found
    rw [doubled_cons_of_ne other, List.cons_append, whole]
    exact ⟨rfl, alone⟩
  | case5 b more same ih =>
    obtain ⟨⟨inner, rest'⟩, found, eq⟩ := Option.map_eq_some_iff.mp read
    cases eq
    obtain ⟨whole, alone⟩ := ih found
    rw [doubled_cons_self, List.cons_append, List.cons_append, not_not.mp same, whole]
    exact ⟨rfl, alone⟩
  | case6 b c more same other =>
    cases read
    rw [not_not.mp same]
    exact ⟨rfl, by simpa using other⟩

/-- A token is read at the front of a text just if it was written there, and no quote follows that would be taken for
part of it. -/
theorem read?_eq_some_iff :
    read? quote text = some (name, rest) ↔ text = between quote name ++ rest ∧ rest.head? ≠ some quote := by
  unfold between
  rw [List.cons_append, List.append_assoc, List.singleton_append]
  constructor
  · intro read
    cases text with
    | nil => cases read
    | cons b text =>
      rw [read?] at read
      split_ifs at read with opens
      obtain ⟨whole, alone⟩ := eq_of_inside? read
      rw [opens, whole]
      exact ⟨rfl, alone⟩
  · rintro ⟨rfl, alone⟩
    rw [read?, if_pos rfl]
    exact inside?_doubled alone name

theorem read?_between (quote : UInt8) (name : Bytes) : read? quote (between quote name) = some (name, []) :=
  read?_eq_some_iff.mpr ⟨(List.append_nil _).symm, nofun⟩

theorem length_of_read? (read : read? quote text = some (name, rest)) : rest.length < text.length := by
  rw [(read?_eq_some_iff.mp read).1, between]
  simp only [List.length_append, List.length_cons]
  omega

/-! ## Tokens with dots between them -/

/-- What the tokens of a text quote, if the text is tokens with dots between them. -/
def dotted? (quote : UInt8) (text : Bytes) : Option (List Bytes) :=
  match _ : read? quote text with
  | none => none
  | some (part, []) => some [part]
  | some (part, b :: rest) => if b = Ascii.dot then (dotted? quote rest).map (part :: ·) else none
termination_by text.length
decreasing_by
  have shorter := length_of_read? ‹_›
  simp only [List.length_cons] at shorter
  omega

theorem dotted?_between (quote : UInt8) (name : Bytes) : dotted? quote (between quote name) = some [name] := by
  have read := read?_between quote name
  unfold dotted?
  split <;> simp_all

/-- A token with a dot after it is the first part, and the text after the dot has the others. -/
theorem dotted?_between_append (apart : quote ≠ Ascii.dot) (name more : Bytes) :
    dotted? quote (between quote name ++ Ascii.dot :: more) = (dotted? quote more).map (name :: ·) := by
  have read : read? quote (between quote name ++ Ascii.dot :: more) = some (name, Ascii.dot :: more) :=
    read?_eq_some_iff.mpr ⟨rfl, by simpa using apart.symm⟩
  rw [dotted?]
  split <;> simp_all

/-- Tokens with dots between them are read just where they were written, and as many of them. -/
theorem dotted?_eq_some_iff (apart : quote ≠ Ascii.dot) :
    dotted? quote text = some parts ↔ parts ≠ [] ∧ text = Bytes.join [Ascii.dot] (parts.map (between quote)) := by
  constructor
  · intro read
    fun_induction dotted? quote text generalizing parts with
    | case1 => simp at read
    | case2 text part found =>
      cases read
      obtain ⟨whole, -⟩ := read?_eq_some_iff.mp found
      refine ⟨List.cons_ne_nil _ _, ?_⟩
      simpa [Bytes.join] using whole
    | case3 text part rest found ih =>
      obtain ⟨others, following, rfl⟩ := Option.map_eq_some_iff.mp read
      obtain ⟨some, rfl⟩ := ih following
      obtain ⟨whole, -⟩ := read?_eq_some_iff.mp found
      refine ⟨List.cons_ne_nil _ _, ?_⟩
      obtain ⟨next, others, rfl⟩ := List.exists_cons_of_ne_nil some
      simpa [Bytes.join] using whole
    | case4 => simp at read
  · rintro ⟨some, rfl⟩
    induction parts with
    | nil => exact absurd rfl some
    | cons part more ih =>
      cases more with
      | nil => simpa [Bytes.join] using dotted?_between quote part
      | cons next more =>
        have others := ih (List.cons_ne_nil next more)
        rw [List.map_cons] at others
        rw [List.map_cons, List.map_cons, Bytes.join_cons_cons, dotted?_between_append apart, others]
        rfl

/-! ## Names and literals -/

theorem nameQuote_ne_dot (d : Dialect) : d.nameQuote ≠ Ascii.dot := by
  cases d <;> decide

/-- A quoted token with any text after it is read just if the text does not go on with the same quote. -/
theorem read?_between_append_iff :
    read? quote (between quote name ++ rest) = some (name, rest) ↔ rest.head? ≠ some quote := by
  rw [read?_eq_some_iff]
  exact and_iff_right rfl

/-- Quoting a name makes one token of it, whatever bytes it has, and the token is read back as the name; a text after
the token, that does not begin with the same quote, is left as it is. A dotted name is read back as its parts with dots
between them, and these are the parts that it has: it is cut at every dot, parts without any byte included. A text as a
literal is one token as well, which is read back as the text. Reading SQL at large finds the same tokens. -/
theorem reads_back :
    (∀ (d : Dialect) (name : Bytes),
      read? d.nameQuote (d.quoteName name) = some (name, [])
      ∧ lex (d.quoteName name) = some [.quoted d.nameQuote name]
      ∧ ∀ rest, read? d.nameQuote (d.quoteName name ++ rest) = some (name, rest) ↔ rest.head? ≠ some d.nameQuote)
    ∧ (∀ (d : Dialect) (name : Bytes),
      dotted? d.nameQuote (d.quoteIdentifier name) = some (Bytes.splitOn Ascii.dot name)
      ∧ lex (d.quoteIdentifier name) = some (dottedTokens d.nameQuote (Bytes.splitOn Ascii.dot name))
      ∧ ∀ parts, Bytes.splitOn Ascii.dot name = parts
        ↔ parts ≠ [] ∧ (∀ part ∈ parts, Ascii.dot ∉ part) ∧ Bytes.join [Ascii.dot] parts = name)
    ∧ ∀ s : Bytes,
      read? Ascii.quote (Fragment.literal (.str s)) = some (s, [])
      ∧ lex (Fragment.literal (.str s)) = some [.quoted Ascii.quote s]
      ∧ ∀ rest, read? Ascii.quote (Fragment.literal (.str s) ++ rest) = some (s, rest)
        ↔ rest.head? ≠ some Ascii.quote := by
  refine ⟨fun d name => ⟨?_, ?_, ?_⟩, fun d name => ⟨?_, ?_, ?_⟩, fun s => ⟨?_, ?_, ?_⟩⟩
  · exact read?_between d.nameQuote name
  · exact lex_eq_some_iff.mpr (lexes_quoteName d name)
  · intro rest
    exact read?_between_append_iff
  · exact (dotted?_eq_some_iff (nameQuote_ne_dot d)).mpr ⟨Bytes.splitOn_ne_nil Ascii.dot name, rfl⟩
  · obtain ⟨first, more, split⟩ := List.exists_cons_of_ne_nil (Bytes.splitOn_ne_nil Ascii.dot name)
    rw [Dialect.quoteIdentifier, split]
    exact lex_eq_some_iff.mpr (lexes_dotted d first more)
  · intro parts
    exact Bytes.splitOn_eq_iff
  · exact read?_between Ascii.quote s
  · exact lex_eq_some_iff.mpr (lexes_between rfl s)
  · intro rest
    exact read?_between_append_iff

-- A name that begins and ends with quotes, and one of empty parts.
example : read? Ascii.doubleQuote "\"\"\"\"\".\"\"\"" = some (Bytes.ofString "\"\".\"", [])
    ∧ Bytes.splitOn Ascii.dot ".a.." = ["", "a", "", ""].map Bytes.ofString := by
  decide

end Quoted

end TableQuery

import TableQuery.Proofs.Statement.Step

/-!
# What stands in statements without quotes

A description is data, and most of it goes into statements as names in quotes or as bound values. Two kinds of its
texts go in as they are: trusted SQL, in parentheses, and the database functions of columns, which are called by their
names. Validation holds the functions to the grammar of dotted names, which has room for none of the signs that SQL
is made of.

## What is proved

`Table.functions_dotted`: the safe identifiers are the dotted names of 1 to 128 bytes; the functions of each column of
a validated description are such names, without any sign of SQL; and beside them and trusted SQL, a statement is put
together from values and phrases of its dialect alone.
-/

namespace TableQuery

/-- The signs of SQL: blanks, quotes, brackets, the placeholder, and what separates, ends, compares or comments out. -/
def Phrase.signs : Bytes := " \t\n\r'\"`()[]\x7b\x7d?;:,*=<>!+-/%|&^~#@$\\"

/-- Dotted names have no sign of SQL in them. -/
theorem Name.Dotted.notMem_of_sign {name : Bytes} (h : Dotted name) : ∀ b ∈ Phrase.signs, b ∉ name := by
  have apart : (Phrase.signs.all fun b => !alphabet.contains b) = true := by decide +kernel
  intro b sign mem
  have outside := List.all_eq_true.mp apart b sign
  rw [List.contains_iff_mem.mpr (h.mem_alphabet b mem)] at outside
  cases outside

namespace Table

variable {t : Table} {d : Dialect}

/-- What the statements for a description are put together from: values, phrases of the dialect, trusted SQL of the
description in its parentheses, and the opened calls of the database functions of its columns. -/
inductive Emits (t : Table) (d : Dialect) : Segment → Prop where
  | value (v : Json) : Emits t d (.value v)
  | phrase {sql : Bytes} (phrase : Phrase d sql) : Emits t d (.text sql)
  | trusted {s : TrustedSql} (mem : s ∈ t.trustedTexts) : Emits t d (.text (Fragment.trusted s).sql)
  | function {c : Column} (mem : c ∈ t.allColumns) {name : Bytes} (among : name ∈ c.dbTransforms) :
      Emits t d (.text (name ++ [Ascii.leftParen]))

theorem emits_of_isWorded {segment : Segment} (h : segment.IsWorded d t.writtenTexts) : t.Emits d segment := by
  have written : ∀ text ∈ t.writtenTexts, t.Emits d (.text text) :=
    forall_writtenTexts (fun _ mem => .trusted mem) fun _ mem _ among => .function mem among
  cases segment with
  | value v => exact .value v
  | text sql => exact h.elim .phrase (written sql)

/-- An identifier is safe just if it is a dotted name: one or more segments of letters, digits and underscores, none of
which begins with a digit, with a dot between each and the next, in 1 to 128 bytes. The database functions of each
column of a validated description are dotted names, whether the column is one of the table or of a join at whatever
depth, and whether it is computed or not; so they are made of letters, digits, underscores and dots, and no sign of SQL
is in them. They and trusted SQL are all that a description has written into a statement as it is: the rest are bound
values, and fixed words, numbers and names in the quotes of the dialect. -/
theorem functions_dotted {catalog : Option Catalog} (valid : t.validate catalog = .ok ()) :
    (∀ s, Name.isSafeIdentifier s = true ↔ (1 ≤ s.length ∧ s.length ≤ 128) ∧ Name.Dotted s)
      ∧ (∀ c ∈ t.allColumns, ∀ name ∈ c.dbTransforms,
          Name.Dotted name ∧ (∀ b ∈ name, b ∈ Name.alphabet) ∧ ∀ b ∈ Phrase.signs, b ∉ name)
      ∧ ∀ (d : Dialect) (p : Params) (c : Context) (clock : Instant) (f : Fragment), t.Produces d p c clock f →
          ∃ segments, f.MadeOf segments ∧ ∀ segment ∈ segments, t.Emits d segment := by
  refine ⟨fun s => Name.isSafeIdentifier_iff, fun c mem name among => ?_, fun d p c clock f produced => ?_⟩
  · have dotted := (Name.isSafeIdentifier_iff.mp (isSafeIdentifier_of_validate valid c mem name among)).2
    exact ⟨dotted, dotted.mem_alphabet, dotted.notMem_of_sign⟩
  · obtain ⟨segments, row, made, worded, -⟩ := wordedIn_of_produces produced
    exact ⟨segments, made, fun segment mem => emits_of_isWorded (worded segment mem)⟩

/-- Members with their mail addresses in small letters, and a label of the team that each is in, in capitals. -/
def members : Table where
  name := "members"
  base := "members"
  columns := [{ name := "mail", field := "mail", dbTransforms := ["text.trim", "lower"] }]
  joins := [.mk "teams" "" .left (.columns "members.team_id" "teams.id")
    [{ name := "team", computed := true, expression := some ⟨"coalesce(teams.name, '-')"⟩,
       dbTransforms := ["upper"] }] []]

/-- The functions are called by their names, and a text that is not a dotted name is no identifier. -/
theorem functions_dotted_members :
    members.validate none = .ok () ∧ Name.Dotted "text.trim" ∧ (∀ b ∈ Phrase.signs, b ∉ Bytes.ofString "upper")
      ∧ ¬Name.Dotted "a..b" ∧ ¬Name.Dotted "a;drop"
      ∧ ∃ compiled segments, members.compile .postgresql {} {} ⟨0⟩ = .ok compiled
        ∧ compiled.data.toSql.MadeOf segments ∧ (∀ segment ∈ segments, members.Emits .postgresql segment)
        ∧ compiled.data.toSql.sql = Bytes.ofString
            "SELECT lower(text.trim(\"members\".\"mail\")) AS \"mail\", upper((coalesce(teams.name, '-'))) AS \"team\""
          ++ " FROM \"members\" LEFT JOIN \"teams\" ON \"members\".\"team_id\" = \"teams\".\"id\" LIMIT 10" := by
  have valid : members.validate none = .ok () := rfl
  obtain ⟨compiled, made⟩ : ∃ compiled, members.compile .postgresql {} {} ⟨0⟩ = .ok compiled := ⟨_, rfl⟩
  obtain ⟨grammar, functions, emitted⟩ := functions_dotted valid
  have produced : members.Produces .postgresql {} {} ⟨0⟩ compiled.data.toSql :=
    .answer (.answer made List.mem_cons_self)
  obtain ⟨segments, put, emits⟩ := emitted _ _ _ _ _ produced
  have refused (s : Bytes) (short : 1 ≤ s.length ∧ s.length ≤ 128) (rejected : Name.isSafeIdentifier s = false) :
      ¬Name.Dotted s := by
    intro dotted
    have safe := (grammar s).mpr ⟨short, dotted⟩
    rw [rejected] at safe
    cases safe
  refine ⟨valid, ((grammar _).mp (by decide)).2, ?_, refused _ (by decide) (by decide),
    refused _ (by decide) (by decide), compiled, segments, made, put, emits, ?_⟩
  · exact (functions _ (List.mem_cons_of_mem _ List.mem_cons_self) _ List.mem_cons_self).2.2
  · cases made
    decide +kernel

end Table

end TableQuery

import TableQuery.Proofs.Sql.Relation

/-!
# Recursive tables

A recursive table has two arms. The first selects from the tables there are and gives the first rows. The second
selects from the table itself as well: it is run on the rows that came last, level by level, until there are none, and
all rows of all levels are the table (`Levels`). A selection from the table follows, with a condition or without, in an
order.

Before it reads a row, a database looks at the arms: the first must not read the table that it is to begin, the second
reads it once, every name is that of one column, and both arms have as many columns. A statement that does not pass
(`Recursion.Taken`) has no answer (`Fragment.Answers`), whatever the rows are. Of the selection only the order is looked
at: its condition is not part of the table.

## What is proved

`levels_iff`: if the rows run dry after finitely many levels, the table is these levels one after the other, and nothing
else is.
-/

namespace TableQuery

/-! ## Selections -/

/-- An item of a selection. -/
inductive ArmItem where
  /-- Every column of a table. -/
  | all (table : Bytes)
  | expression (tokens : List Token) (name : Option Bytes)

/-- A selection from one table, or from two that are joined. -/
structure Arm where
  items : List ArmItem
  /-- The tables, each with the name that it has in the selection. -/
  sources : List (Bytes × Bytes)
  /-- The condition of the join and that of the selection. -/
  conditions : List (List Token)

/-- Whether a token separates items. -/
def Token.isComma : Token → Bool
  | .mark b => b == Ascii.comma
  | _ => false

/-- Whether the condition of a selection begins at a token. -/
def Token.isWhere (t : Token) : Bool := t.keyword? == some .whereClause

/-- Whether the order of a selection begins at a token. -/
def Token.isOrder (t : Token) : Bool := t.keyword? == some .orderClause

/-- Reads an item. -/
def ArmItem.read (ts : List Token) : ArmItem :=
  match ts with
  | [.quoted _ table, .mark Ascii.dot, .sign [Ascii.star]] => .all table
  | _ =>
    match cutAt (Token.isWord "AS") ts with
    | some (tokens, [.quoted _ name]) => .expression tokens (some name)
    | _ => .expression ts none

/-- Reads a table of a selection: its own name, and the one it is given if there is one. -/
def readSource : List Token → Option (Bytes × Bytes)
  | [.quoted _ table] => some (table, table)
  | [.quoted _ table, .quoted _ name] => some (name, table)
  | _ => none

/-- Reads the tables of a selection, and the condition on which the second is joined to the first. -/
def readSources (ts : List Token) : Option (List (Bytes × Bytes) × List (List Token)) :=
  match cutAt (Token.isWord "INNER") ts with
  | none => (readSource ts).map fun source => ([source], [])
  | some (first, join :: joined) =>
    if join.isWord "JOIN" then
      (cutAt (Token.isWord "ON") joined).bind fun (second, on) =>
        (readSource first).bind fun a => (readSource second).map fun b => ([a, b], [on])
    else none
  | some (_, []) => none

/-- Reads an arm. -/
def Arm.read : List Token → Option Arm
  | select :: rest =>
    if select.isWord "SELECT" then
      (cutAt (Token.isWord "FROM") rest).bind fun (items, rest) =>
        (cutAt Token.isWhere rest).bind fun (tables, condition) =>
          (readSources tables).map fun (sources, on) =>
            { items := (items.splitOnP Token.isComma).map ArmItem.read, sources, conditions := on ++ [condition] }
    else none
  | [] => none

/-! ## Recursive tables -/

/-- A recursive table and a selection from it. -/
structure Recursion where
  name : Bytes
  seed : Arm
  step : Arm
  condition : Option (List Token)
  keys : List (List Token)

namespace Recursion

/-- Reads the two arms. -/
def readArms (ts : List Token) : Option (Arm × Arm) :=
  match cutAt (Token.isWord "UNION") ts with
  | some (seed, all :: step) =>
    if all.isWord "ALL" then (Arm.read seed).bind fun a => (Arm.read step).map fun b => (a, b) else none
  | _ => none

/-- Reads what follows the table in the selection from it: a condition, if there is one, and an order. -/
def readEnd (ts : List Token) : Option (Option (List Token) × List (List Token)) :=
  match cutAt Token.isOrder ts with
  | some ([], _ :: keys) => some (none, keys.splitOnP Token.isComma)
  | some (filter :: condition, _ :: keys) =>
    if filter.isWhere then some (some condition, keys.splitOnP Token.isComma) else none
  | _ => none

/-- Reads the table in parentheses, and what follows it in the selection from it. -/
def readParts (name : Bytes) (arms rest : List Token) : Option Recursion :=
  (readArms arms).bind fun (seed, step) =>
    (readEnd rest).map fun (condition, keys) => { name, seed, step, condition, keys }

/-- The words that a statement has around the table and its name. -/
def words : List Bytes := ["WITH", "RECURSIVE", "AS", "SELECT", "FROM"]

/-- Reads a statement. -/
def read : List Token → Option Recursion
  | .word a :: .word b :: .quoted _ name :: .word c :: .group arms :: .word d :: .sign [Ascii.star] :: .word e
      :: .quoted _ source :: rest =>
    if [a, b, c, d, e].map Bytes.toUpper = words ∧ source = name then readParts name arms rest else none
  | _ => none

end Recursion

/-! ## What a selection gives -/

/-- The tables of a database by their names. -/
abbrev Tables := Bytes → Option Relation

namespace ArmItem

/-- Whether the names in an item are known. -/
def isKnown (tables : List (Bytes × List Bytes)) : ArmItem → Bool
  | all table => (tables.lookup table).isSome
  | expression tokens _ => (namesIn tokens).all (knows tables)

/-- The names of the columns that an item gives, of those that have one. -/
def columns (tables : List (Bytes × List Bytes)) : ArmItem → List (Option Bytes)
  | all table => ((tables.lookup table).getD []).map some
  | expression _ name => [name]

/-- The values that an item gives. -/
def values (db : Database) (vars : List RangeVar) : ArmItem → List Json
  | all table => ((vars.find? fun v => v.name == table).map RangeVar.row).getD []
  | expression tokens _ => [db.eval vars tokens]

end ArmItem

/-- Each row of the first table with each row of the next, and so on. -/
def combinations : List (Bytes × Relation) → List (List RangeVar)
  | [] => [[]]
  | (name, table) :: more =>
    table.rows.flatMap fun row => (combinations more).map fun vars => ⟨name, table.columns, row⟩ :: vars

namespace Arm

/-- The tables that an arm ranges over. -/
def ranges? (tables : Tables) (a : Arm) : Option (List (Bytes × Relation)) :=
  a.sources.mapM fun (name, table) => (tables table).map fun found => (name, found)

/-- The names of the columns that an arm gives; none if the database refuses it. -/
def columns? (tables : Tables) (a : Arm) : Option (List (Option Bytes)) :=
  (a.ranges? tables).bind fun ranges =>
    let shape := ranges.map (Prod.map id Relation.columns)
    if (shape.map Prod.fst).Nodup ∧ (a.conditions.all fun c => (namesIn c).all (knows shape)) = true
        ∧ a.items.all (ArmItem.isKnown shape) = true then
      some (a.items.flatMap (ArmItem.columns shape))
    else none

theorem columns?_eq_some {tables : Tables} {a : Arm} {ranges : List (Bytes × Relation)}
    {shape : List (Bytes × List Bytes)} {names : List (Option Bytes)} (h : a.ranges? tables = some ranges)
    (hs : ranges.map (Prod.map id Relation.columns) = shape) :
    a.columns? tables = some names
      ↔ ((shape.map Prod.fst).Nodup ∧ (a.conditions.all fun c => (namesIn c).all (knows shape)) = true
          ∧ a.items.all (ArmItem.isKnown shape) = true)
        ∧ a.items.flatMap (ArmItem.columns shape) = names := by
  subst hs
  rw [columns?, h, Option.bind_some, Option.ite_none_right_eq_some, Option.some_inj]

/-- The rows that an arm gives. -/
def rows (db : Database) (tables : Tables) (a : Arm) : List (List Json) :=
  ((combinations ((a.ranges? tables).getD [])).filter fun vars =>
      a.conditions.all fun condition => db.verdict vars condition == .true).map fun vars =>
    a.items.flatMap (ArmItem.values db vars)

end Arm

/-! ## Level by level -/

/-- All rows that come of the first ones by taking the next rows again and again, until there are none. -/
inductive Levels {α : Type} (next : List α → List α) : (first : List α) → (all : List α) → Prop where
  | done : Levels next [] []
  | level {rows more : List α} (some : rows ≠ []) (rest : Levels next (next rows) more) :
      Levels next rows (rows ++ more)

section Levels

variable {α : Type} {next : List α → List α} {first all : List α}

theorem Levels.unique (h : Levels next first all) {other : List α} (h' : Levels next first other) : all = other := by
  induction h generalizing other with
  | done =>
    cases h' with
    | done => rfl
    | level some _ => exact absurd rfl some
  | level some _ ih =>
    cases h' with
    | done => exact absurd rfl some
    | level _ rest => rw [ih rest]

theorem levels_flatMap (dry : next [] = []) {n : ℕ} (ends : next^[n] first = []) :
    Levels next first ((List.range n).flatMap fun k => next^[k] first) := by
  induction n generalizing first with
  | zero =>
    have none : first = [] := ends
    rw [none]
    exact .done
  | succ n ih =>
    cases first with
    | nil =>
      have empty (k : ℕ) : next^[k] [] = [] := Function.iterate_fixed dry k
      have none : ((List.range (n + 1)).flatMap fun k => next^[k] []) = [] := by
        rw [List.flatMap_eq_nil_iff]
        exact fun k _ => empty k
      rw [none]
      exact .done
    | cons a first =>
      rw [List.range_succ_eq_map, List.flatMap_cons, List.flatMap_map]
      exact .level (List.cons_ne_nil a first) (ih ends)

/-- If no rows come of none, and none are left after `n` levels, the levels before are all rows. -/
theorem levels_iff (dry : next [] = []) {n : ℕ} (ends : next^[n] first = []) :
    Levels next first all ↔ all = (List.range n).flatMap fun k => next^[k] first := by
  have run := levels_flatMap dry ends
  constructor
  · exact fun h => h.unique run
  · rintro rfl
    exact run

end Levels

namespace Recursion

/-- A database with these tables takes the statement, and the recursive table has columns of these names. -/
structure Taken (tables : Tables) (q : Recursion) (columns : List Bytes) : Prop where
  /-- The first arm does not read the table that it begins. -/
  fresh : q.name ∉ q.seed.sources.map Prod.snd
  /-- The second arm reads it once. -/
  once : (q.step.sources.map Prod.snd).count q.name = 1
  seed : q.seed.columns? tables = some (columns.map some)
  step : ∃ more, q.step.columns? (Function.update tables q.name (some { columns, rows := [] })) = some more
    ∧ more.length = columns.length
  keys : ∀ key ∈ q.keys, (namesIn key).all (knows [(q.name, columns)]) = true

/-- The rows that the second arm gives when these came last. -/
def next (db : Database) (tables : Tables) (q : Recursion) (columns : List Bytes) (rows : List (List Json)) :
    List (List Json) :=
  q.step.rows db (Function.update tables q.name (some { columns, rows }))

/-- Whether the selection from the table keeps a row. -/
def keeps (db : Database) (q : Recursion) (columns : List Bytes) (row : List Json) : Bool :=
  q.condition.all fun condition => db.verdict [⟨q.name, columns, row⟩] condition == .true

end Recursion

/-- A database with these tables takes the statement, the recursive table in it comes to an end and has these columns
and rows, and this is the answer. -/
def Fragment.Answers (db : Database) (tables : Tables) (statement : Fragment) (tree : Relation)
    (answer : List (List Json)) : Prop :=
  ∃ ts q, statement.tokens? = some ts ∧ Recursion.read ts = some q ∧ q.Taken tables tree.columns
    ∧ Levels (q.next db tables tree.columns) (q.seed.rows db tables) tree.rows
    ∧ answer = db.sort q.keys { tree with rows := tree.rows.filter (q.keeps db tree.columns) }

end TableQuery

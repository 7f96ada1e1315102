import TableQuery.Fault

/-!
# SQL dialects

The flavours of SQL that statements are written for, which features each one has, how each one quotes
names and where it puts nulls in an order. The unknown dialect is taken to have every feature, so a
description can be checked before a database is chosen.

Names are quoted by doubling the quote inside them. A dotted name is quoted part by part, split at
every dot.
-/

namespace TableQuery

/-- A flavour of SQL. -/
inductive Dialect where
  | postgresql
  | mysql
  | sqlite
  | unknown
deriving Repr, DecidableEq

/-- What a dialect may lack. -/
inductive Feature where
  | ilike
  | fullTextSearch
  | recursiveCte
  | returning
  | lateral
  | distinct
  | estimatedCount
  | rowToJson
  | fullJoin
deriving Repr, DecidableEq

namespace Feature

/-- Every feature. -/
def all : List Feature :=
  [.ilike, .fullTextSearch, .recursiveCte, .returning, .lateral, .distinct, .estimatedCount,
    .rowToJson, .fullJoin]

/-- The name of a feature in messages. -/
def name : Feature → Bytes
  | ilike => "ilike"
  | fullTextSearch => "fullTextSearch"
  | recursiveCte => "recursiveCTE"
  | returning => "returning"
  | lateral => "lateral"
  | distinct => "distinct"
  | estimatedCount => "estimatedCount"
  | rowToJson => "rowToJson"
  | fullJoin => "fullJoin"

/-- The dialects known to have a feature. -/
def dialects : Feature → List Dialect
  | ilike | fullTextSearch | lateral | estimatedCount | rowToJson => [.postgresql]
  | recursiveCte | returning | fullJoin => [.postgresql, .sqlite]
  | distinct => [.postgresql, .mysql, .sqlite]

end Feature

namespace Dialect

/-! ## Names of dialects -/

/-- The name of a dialect. -/
def name : Dialect → Bytes
  | postgresql => "postgresql"
  | mysql => "mysql"
  | sqlite => "sqlite"
  | unknown => "unknown"

/-- The dialect of a name, in any case. -/
def ofName (name : Bytes) : Checked Dialect :=
  let lower := Bytes.toLower name
  match [postgresql, mysql, sqlite, unknown].find? (fun d => d.name == lower) with
  | some d => .ok d
  | none =>
    .error (.config (Bytes.ofString "Unknown dialect '" ++ name ++ "'")
      (.record [("dialect", .str name)]))

/-- The dialect of a database driver, told by the words in the driver's name. -/
def ofDriver (driver : Bytes) : Dialect :=
  let lower := Bytes.toLower driver
  let mentions (words : List Bytes) : Bool := words.any fun w => Bytes.occursIn w lower
  if mentions ["pg", "postgres", "neon"] then .postgresql
  else if mentions ["mysql", "planetscale"] then .mysql
  else if mentions ["sqlite", "libsql", "turso"] || lower == "d1" then .sqlite
  else .unknown

/-! ## Features -/

/-- Whether a dialect has a feature. -/
def supports (d : Dialect) (f : Feature) : Bool := d == .unknown || f.dialects.contains d

/-- Refuses a feature that the dialect lacks. -/
def require (d : Dialect) (f : Feature) : Checked Unit :=
  if d.supports f then .ok () else .error (.dialect f.name d.name)

/-- The type to which a value is cast to be read as text. -/
def textType : Dialect → Bytes
  | mysql => "CHAR"
  | _ => "TEXT"

/-- Whether nulls come first in a descending or ascending order. -/
def nullsFirst (d : Dialect) (descending : Bool) : Bool :=
  match d with
  | mysql | sqlite => !descending
  | postgresql | unknown => descending

/-- The keyword that matches a pattern in any case; the others match so with `LIKE` already. -/
def anyCaseLike : Dialect → Bytes
  | postgresql => "ILIKE"
  | _ => "LIKE"

/-! ## Quoting -/

/-- The byte that quotes names. -/
def nameQuote : Dialect → UInt8
  | mysql => Ascii.backquote
  | _ => Ascii.doubleQuote

/-- Writes each quote in a text twice. -/
def doubled (quote : UInt8) (s : Bytes) : Bytes :=
  s.flatMap fun b => if b == quote then [quote, b] else [b]

/-- A text between quotes, with the quotes inside it doubled. -/
def between (quote : UInt8) (s : Bytes) : Bytes := quote :: (doubled quote s ++ [quote])

/-- A single name, quoted. -/
def quoteName (d : Dialect) (name : Bytes) : Bytes := between d.nameQuote name

/-- A dotted name, each part quoted. -/
def quoteIdentifier (d : Dialect) (dotted : Bytes) : Bytes :=
  Bytes.join [Ascii.dot] ((Bytes.splitOn Ascii.dot dotted).map d.quoteName)

end Dialect

end TableQuery

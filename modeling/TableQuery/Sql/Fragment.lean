import TableQuery.Sql.Dialect
import TableQuery.Json.Print

/-!
# SQL fragments

A fragment is SQL text with its bound values: each `?` outside quoted text stands for the next value, in
order. Values never enter the text. `render` numbers the placeholders for the dialects that want it,
`debug` writes literals in their place for a log.

`kind` records the connective at the top of the text, and `all` and `any` use it to put parentheses just
where the other connective would otherwise take a part over. Empty parts vanish in both; a single part
stays as it is.
-/

namespace TableQuery

/-- SQL written by the author of a description; no request ever becomes one. -/
structure TrustedSql where
  sql : Bytes
deriving Repr, DecidableEq

/-- The connective at the top of a condition. -/
inductive Connective where
  | atom
  | conjunction
  | disjunction
deriving Repr, DecidableEq

/-- SQL text with bound values. -/
structure Fragment where
  sql : Bytes := []
  params : List Json := []
  kind : Connective := .atom
deriving Repr, Inhabited

namespace Fragment

/-! ## Building -/

/-- The fragment without text. -/
def empty : Fragment := {}

/-- Whether there is no text. -/
def isEmpty (f : Fragment) : Bool := f.sql.isEmpty

/-- Plain SQL text. -/
def text (sql : Bytes) : Fragment := { sql }

/-- A bound value. -/
def value (v : Json) : Fragment := { sql := [Ascii.question], params := [v] }

/-- A dotted name, quoted. -/
def identifier (d : Dialect) (dotted : Bytes) : Fragment := text (d.quoteIdentifier dotted)

/-- Trusted SQL, in parentheses so that it composes. -/
def trusted (t : TrustedSql) : Fragment := text (Ascii.leftParen :: (t.sql ++ [Ascii.rightParen]))

/-- Goes on with text. -/
def add (f : Fragment) (sql : Bytes) : Fragment := { f with sql := f.sql ++ sql }

/-- Goes on with a bound value. -/
def bind (f : Fragment) (v : Json) : Fragment :=
  { f with sql := f.sql ++ [Ascii.question], params := f.params ++ [v] }

/-- Goes on with another fragment, whose connective is forgotten. -/
def append (f g : Fragment) : Fragment :=
  { f with sql := f.sql ++ g.sql, params := f.params ++ g.params }

instance : Append Fragment := ⟨append⟩

/-- In parentheses, which make it an atom. -/
def wrapped (f : Fragment) : Fragment :=
  { sql := Ascii.leftParen :: (f.sql ++ [Ascii.rightParen]), params := f.params }

/-- With another connective recorded. -/
def withKind (f : Fragment) (kind : Connective) : Fragment := { f with kind }

/-- The parts with a separator between them. -/
def join (separator : Bytes) : List Fragment → Fragment
  | [] => empty
  | f :: rest => rest.foldl (fun acc g => acc.add separator ++ g) (empty ++ f)

/-! ## Conditions -/

/-- Joins the parts that have text; a part of the kind that binds less is put in parentheses. -/
def combine (op : Bytes) (kind wraps : Connective) (parts : List Fragment) : Fragment :=
  match parts.filter (fun f => !f.isEmpty) with
  | [] => empty
  | [f] => f
  | present =>
    (join op (present.map fun f => if f.kind == wraps then f.wrapped else f)).withKind kind

/-- All of the conditions. -/
def all (parts : List Fragment) : Fragment := combine " AND " .conjunction .disjunction parts

/-- Any of the conditions. -/
def any (parts : List Fragment) : Fragment := combine " OR " .disjunction .conjunction parts

/-- The negation of a condition; of none, none. -/
def not (f : Fragment) : Fragment := if f.isEmpty then empty else text "NOT " ++ f.wrapped

/-- The condition that holds of every row. -/
def alwaysTrue : Fragment := text "1=1"

/-- The condition that holds of no row. -/
def alwaysFalse : Fragment := text "1=0"

/-! ## Placeholders -/

/-- Whether a byte opens quoted text. -/
def isQuote (b : UInt8) : Bool :=
  b == Ascii.quote || b == Ascii.doubleQuote || b == Ascii.backquote

/-- Replaces the placeholders outside quoted text, numbered from `index`. Inside quoted text, `quote` is
the byte that ends it. -/
def replaceFrom (replacement : Nat → Bytes) : (quote : Option UInt8) → (index : Nat) → Bytes → Bytes
  | _, _, [] => []
  | some q, index, b :: rest =>
    b :: replaceFrom replacement (if b == q then none else some q) index rest
  | none, index, b :: rest =>
    if isQuote b then b :: replaceFrom replacement (some b) index rest
    else if b == Ascii.question then
      replacement index ++ replaceFrom replacement none (index + 1) rest
    else b :: replaceFrom replacement none index rest

/-- Replaces every placeholder. -/
def replacePlaceholders (replacement : Nat → Bytes) (sql : Bytes) : Bytes :=
  replaceFrom replacement none 0 sql

/-- The text as the dialect takes it. -/
def render (f : Fragment) (d : Dialect) : Bytes :=
  match d with
  | .postgresql => replacePlaceholders (fun i => Ascii.dollar :: Bytes.ofNat (i + 1)) f.sql
  | _ => f.sql

/-- A value as an SQL literal. -/
def literal : Json → Bytes
  | .null => "NULL"
  | .bool true => "TRUE"
  | .bool false => "FALSE"
  | .int n => (Json.int n).compact
  | .float x => (Json.float x).compact
  | .str s => Dialect.between Ascii.quote s
  | j => Dialect.between Ascii.quote j.compact

/-- The text with its values written into it, for logs; a placeholder without a value stays. -/
def debug (f : Fragment) : Bytes :=
  replacePlaceholders (fun i => (f.params[i]?.map literal).getD [Ascii.question]) f.sql

/-- Equality of text and values. -/
def same (f g : Fragment) : Bool := f.sql == g.sql && Json.sameItems f.params g.params

/-- A statement as it is handed out: text, values, and the text for logs. -/
def statementToJson (f : Fragment) (d : Dialect) : Json :=
  .record [("sql", .str (f.render d)), ("params", .arr f.params), ("debug", .str f.debug)]

end Fragment

end TableQuery

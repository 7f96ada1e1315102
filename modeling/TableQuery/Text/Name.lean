import TableQuery.Text.Bytes

/-!
# Names

The grammar of SQL names that need no quoting: a letter or underscore, then letters, digits and
underscores. `isSafeIdentifier` accepts one or more such names with dots between them, up to 128 bytes.
-/

namespace TableQuery

namespace Name

/-- Whether a text is a single name. -/
def isSimple : Bytes → Bool
  | [] => false
  | b :: rest => Ascii.isNameStart b && rest.all Ascii.isNameRest

/-- Whether a text is a name, or two names with a dot between them. -/
def isQualified (s : Bytes) : Bool :=
  match Bytes.splitOn Ascii.dot s with
  | [name] => isSimple name
  | [qualifier, name] => isSimple qualifier && isSimple name
  | _ => false

/-- The greatest length of a safe identifier. -/
def maxLength : Nat := 128

/-- Whether a text can be written into SQL without quotes. One pass: `start` says whether a new name has
to begin here. -/
def scan (start : Bool) : Bytes → Bool
  | [] => !start
  | b :: rest =>
    if b == Ascii.dot then !start && scan true rest
    else if start then Ascii.isNameStart b && scan false rest
    else Ascii.isNameRest b && scan false rest

/-- Whether a text is a dotted name of bounded length. -/
def isSafeIdentifier (s : Bytes) : Bool := s.length ≤ maxLength && scan true s

end Name

end TableQuery

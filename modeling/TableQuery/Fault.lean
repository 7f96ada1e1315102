import TableQuery.Json.Read

/-!
# Faults

What a caller is told when a description, a request or an execution is refused. A `Fault` carries a
stable code, a message, details as JSON and a status in the manner of HTTP. Its message never holds SQL
that was built for a statement.

A computation on values that were never checked can also fail in two ways that no one has put into
words for the caller; `Failure` has both beside the faults. The readers of whole documents turn every
`Json.Mismatch` into a fault, so only `Except Fault` leaves them.
-/

namespace TableQuery

/-- A refusal, by its kind. -/
inductive Fault where
  /-- A field exists and does not permit what was asked of it. -/
  | field (field message : Bytes)
  /-- A request value has the wrong shape; `expected` says which it should have, empty if unsaid. -/
  | validation (field message expected : Bytes)
  /-- A description is invalid. -/
  | config (message : Bytes) (details : Json)
  /-- The SQL flavour lacks a feature. -/
  | dialect (feature dialect : Bytes)
  /-- The caller may not do this. -/
  | accessDenied (message : Bytes) (details : Json)
  /-- No such thing. -/
  | notFound (resource id : Bytes)
  /-- An executor failed. -/
  | query (message : Bytes) (details : Json)
deriving Repr

namespace Fault

/-- The stable code of a fault's kind. -/
def code : Fault → Bytes
  | .field .. => "FIELD_ERROR"
  | .validation .. => "VALIDATION_ERROR"
  | .config .. => "CONFIG_ERROR"
  | .dialect .. => "DIALECT_ERROR"
  | .accessDenied .. => "ACCESS_DENIED"
  | .notFound .. => "NOT_FOUND"
  | .query .. => "QUERY_ERROR"

/-- The status of a fault's kind. -/
def status : Fault → Nat
  | .field .. | .validation .. | .config .. | .dialect .. => 400
  | .accessDenied .. => 403
  | .notFound .. => 404
  | .query .. => 500

/-- The full wording of a fault. -/
def wording : Fault → Bytes
  | .field _ message => message
  | .validation _ message _ => message
  | .config message _ => message
  | .dialect feature name => Bytes.ofString "'" ++ feature ++ "' is not supported on " ++ name
  | .accessDenied message _ => message
  | .notFound resource id => resource ++ " '" ++ id ++ "' not found"
  | .query message _ => message

/-- What the caller reads: the wording up to the first NUL byte, which ends a message. -/
def message (f : Fault) : Bytes := f.wording.takeWhile fun b => b != 0

/-- The details of a fault. -/
def details : Fault → Json
  | .field name _ => .record [("field", .str name)]
  | .validation name _ expected =>
    .recordOf [[("field", .str name)], Json.memberIf (!expected.isEmpty) "expected" (.str expected)]
  | .config _ details => details
  | .dialect feature name => .record [("feature", .str feature), ("dialect", .str name)]
  | .accessDenied _ details => details
  | .notFound resource id => .record [("resource", .str resource), ("id", .str id)]
  | .query _ details => details

/-- A fault as a caller receives it; details without content are left out. -/
def toJson (f : Fault) : Json :=
  .recordOf
    [[("error", .str f.message), ("code", .str f.code), ("statusCode", .int f.status)],
      Json.memberIf (f.details.size != 0) "details" f.details]

/-- No word of a fixed vocabulary. -/
def unknownName (kind value : Bytes) : Fault :=
  .config (Bytes.ofString "Unknown " ++ kind ++ " '" ++ value ++ "'")
    (.record [("kind", .str kind), ("value", .str value)])

end Fault

/-- The ways in which a computation on unchecked values can fail. -/
inductive Failure where
  | fault (fault : Fault)
  /-- A JSON value was not of the kind that was read. -/
  | mismatch (mismatch : Json.Mismatch)
  /-- A written index does not fit a machine word. -/
  | indexOutOfRange
deriving Repr

/-- A value, or a fault. -/
abbrev Checked (α : Type) := Except Fault α

/-- A value, or a failure. -/
abbrev Outcome (α : Type) := Except Failure α

instance : MonadLift (Except Json.Mismatch) (Except Failure) where
  monadLift := fun r => r.mapError .mismatch

instance : MonadLift (Except Fault) (Except Failure) where
  monadLift := fun r => r.mapError .fault

/-- Refuses with a fault. -/
def Fault.raise {α : Type} (f : Fault) : Outcome α := .error (.fault f)

/-- Puts every mismatch of an outcome into words, as a fault. What cannot arise while reading a document
is worded like a mismatch. -/
def Outcome.wordMismatch {α : Type} (word : Bytes → Fault) : Outcome α → Checked α
  | .ok a => .ok a
  | .error (.fault f) => .error f
  | .error (.mismatch m) => .error (word m.text)
  | .error .indexOutOfRange => .error (word "[json.exception.out_of_range] index")

end TableQuery

import TableQuery.Json.Parse
import TableQuery.Json.Read
import TableQuery.Json.Print
import TableQuery.Text.Base64Url

/-!
# Cursor tokens

A cursor token carries the sort values of a page's last row: an object, written as JSON and put into
base64 for URLs. A token that does not decode to an object is refused.
-/

namespace TableQuery

namespace Cursor

/-- The token of a value. -/
def encode (boundary : Json) : Bytes := Base64Url.encode boundary.compact

/-- The object that a token carries. -/
def decode (token : Bytes) : Option Json := do
  let text ← Base64Url.decode token
  let value ← Json.parse? text
  if value.isObj then some value else none

end Cursor

end TableQuery

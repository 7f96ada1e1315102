import TableQuery.Digest.Sha256
import TableQuery.Json.Print

/-!
# Cache keys

The key of a request is the digest of what its response depends on: the table and the kind of request,
the parameters and the context, written as one JSON value. Objects are written with sorted members, so
equal requests have equal keys.
-/

namespace TableQuery

namespace Cache

/-- The key of a request, in hexadecimal digits. -/
def keyOf (table : Bytes) (params context : Json) : Bytes :=
  let request := Json.record [("table", .str table), ("params", params), ("context", context)]
  Bytes.toHex (Sha256.digest request.compact)

end Cache

end TableQuery

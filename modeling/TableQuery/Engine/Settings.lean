import TableQuery.Sql.Dialect

/-!
# Engine settings

The settings of a process: the dialect of its database, its log, and the size of its cache.
-/

namespace TableQuery

/-- How much is logged. -/
inductive LogLevel where
  | trace
  | debug
  | info
  | warn
  | error
  | critical
deriving Repr, DecidableEq

namespace LogLevel

/-- The name of a level. -/
def name : LogLevel → Bytes
  | trace => "trace"
  | debug => "debug"
  | info => "info"
  | warn => "warn"
  | error => "error"
  | critical => "critical"

/-- The words for the levels. -/
def words : List (Bytes × LogLevel) :=
  [("trace", trace), ("debug", debug), ("info", info), ("warn", warn), ("warning", warn),
    ("error", error), ("err", error), ("critical", critical), ("crit", critical)]

/-- The level of a word in any case; any other word means the middle one. -/
def ofName (word : Bytes) : LogLevel :=
  let lower := Bytes.toLower word
  ((words.find? fun entry => entry.1 == lower).map Prod.snd).getD .info

end LogLevel

/-- The settings of a process. -/
structure Settings where
  dialect : Dialect := .postgresql
  logLevel : Bytes := "info"
  /-- The file of the log, empty for none. -/
  logFile : Bytes := []
  cacheEntries : UInt64 := 1000
deriving Repr

namespace Settings

/-- Reads settings part by part. -/
def read (j : Json) : Outcome Settings := do
  let dialect ← Dialect.ofName (← j.textOr "dialect" "postgresql")
  let logLevel ← j.textOr "log_level" "info"
  let logFile ← j.textOr "log_file" []
  let cacheEntries ← match j.get? "cache" with
    | none => pure 1000
    | some cache => cache.uint64Or "max_entries" 1000
  return { dialect, logLevel, logFile, cacheEntries }

/-- The fault of settings with a value of the wrong kind. -/
def malformed (reason : Bytes) : Fault :=
  .config "Invalid engine settings" (.record [("reason", .str reason)])

/-- Reads settings. -/
def ofJson (j : Json) : Checked Settings := (read j).wordMismatch malformed

/-- Writes settings. -/
def toJson (s : Settings) : Json :=
  .recordOf
    [[("dialect", .str s.dialect.name), ("log_level", .str s.logLevel),
        ("cache", .record [("max_entries", .int s.cacheEntries.toNat)])],
      Json.memberIf (!s.logFile.isEmpty) "log_file" (.str s.logFile)]

end Settings

end TableQuery

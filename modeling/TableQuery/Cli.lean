import TableQuery.Engine.Settings
import TableQuery.Json.Parse
import TableQuery.Statement.Compiled
import TableQuery.Table.Document
import TableQuery.Validation.Check

/-!
# The command line

A program that compiles a request from files and prints the statements. It is a function of its
arguments and of the files it is given: the result has an exit status and the two texts that it prints.

Statements and faults go to the standard output as indented JSON. The exit status is 0 for statements
and for help, 1 for a fault, and 2 for arguments that make no sense.
-/

namespace TableQuery

namespace Cli

/-- What a run prints, and its exit status. -/
structure Result where
  exit : Nat
  stdout : Bytes := []
  stderr : Bytes := []
deriving Repr

/-- The content of a file, none if it cannot be read. -/
abbrev Files := Bytes → Option Bytes

/-- The arguments of a run. -/
structure Options where
  config : Bytes := []
  table : Bytes := []
  params : Option Bytes := none
  context : Option Bytes := none
  catalog : Option Bytes := none
  dialect : Option Bytes := none
  mode : Bytes := "query"
  logLevel : Bytes := "warn"
deriving Repr

/-- What the arguments ask for. -/
inductive Command where
  | compile (options : Options)
  | help
  | unknown (argument : Bytes)
deriving Repr

/-! ## Arguments -/

/-- Sets the option of a name to a value. -/
def Options.set? (o : Options) (name value : Bytes) : Option Options :=
  if name = Bytes.ofString "--config" then some { o with config := value }
  else if name = Bytes.ofString "--table" then some { o with table := value }
  else if name = Bytes.ofString "--params" then some { o with params := some value }
  else if name = Bytes.ofString "--context" then some { o with context := some value }
  else if name = Bytes.ofString "--catalog" then some { o with catalog := some value }
  else if name = Bytes.ofString "--dialect" then some { o with dialect := some value }
  else if name = Bytes.ofString "--mode" then some { o with mode := value }
  else if name = Bytes.ofString "--log-level" then some { o with logLevel := value }
  else none

/-- Whether an argument asks for help. -/
def isHelp (argument : Bytes) : Bool :=
  argument == Bytes.ofString "--help" || argument == Bytes.ofString "-h"

/-- Reads arguments from the left. An option at the end that lacks its value is unknown. -/
def parseArguments (o : Options) : List Bytes → Command
  | [] => .compile o
  | [argument] => if isHelp argument then .help else .unknown argument
  | name :: value :: rest =>
    match o.set? name value with
    | some o => parseArguments o rest
    | none => if isHelp name then .help else .unknown name

/-- How the program is used. -/
def usage (program : Bytes) : Bytes :=
  (Bytes.ofString "Usage: ") ++ program ++ " --config FILE --table NAME [options]\n"
    ++ "Options:\n"
    ++ "  --config FILE     Table configuration (YAML or JSON)\n"
    ++ "  --table NAME      Table to compile\n"
    ++ "  --params FILE     Request parameters (JSON)\n"
    ++ "  --context FILE    Request context: tenant, user, variables (JSON)\n"
    ++ "  --catalog FILE    Schema catalog \x7btable: [columns]\x7d for validation (JSON)\n"
    ++ "  --dialect NAME    postgresql | mysql | sqlite | unknown\n"
    ++ "  --mode MODE       query | count | grouped | recursive (default: query)\n"
    ++ "  --log-level LVL   trace | debug | info | warn | error (default: warn)\n"
    ++ "  --help, -h        Show this help message\n"

/-! ## Files -/

/-- The text of a JSON parser's refusal inside a message. -/
def parseFailure : Bytes := "[json.exception.parse_error] invalid JSON"

/-- The tables of a configuration file. -/
def readTables (files : Files) (path : Bytes) : Checked (List Table) :=
  match files path with
  | none => .error (.config "Cannot open configuration file" (.record [("path", .str path)]))
  | some text =>
    match Json.parseFirst? text with
    | none =>
      .error (.config "Failed to parse JSON configuration"
        (.record [("path", .str path), ("reason", .str parseFailure)]))
    | some (document, _) => Table.listOfJson document

/-- The value that a file begins with; `what` names the file's purpose in faults. -/
def readValue (files : Files) (what path : Bytes) : Checked Json :=
  match files path with
  | none =>
    .error (.validation what (Bytes.ofString "Cannot open file '" ++ path ++ "'") [])
  | some text =>
    match Json.parseFirst? text with
    | none => .error (.validation what (Bytes.ofString "Invalid JSON: " ++ parseFailure) "JSON object")
    | some (value, _) => .ok value

/-- Reads a file that may not be given. -/
def readOptional {α : Type} (files : Files) (what : Bytes) (read : Json → Checked α) (absent : α) :
    Option Bytes → Checked α
  | none => .ok absent
  | some path => do read (← readValue files what path)

/-! ## Running -/

/-- The statements of one of the modes. -/
def statements (t : Table) (d : Dialect) (mode : Bytes) (p : Params) (c : Context) (clock : Instant) :
    Checked Json := do
  if mode = Bytes.ofString "query" then return (← t.compile d p c clock).toJson
  else if mode = Bytes.ofString "count" then return (← t.compileCount d p c clock).toJson
  else if mode = Bytes.ofString "grouped" then return (← t.compileGrouped d p c clock).toJson
  else if mode = Bytes.ofString "recursive" then return (← t.compileTree d p c).statementToJson d
  else
    .error (.validation "mode" (Bytes.ofString "Unknown mode '" ++ mode ++ "'")
      "query|count|grouped|recursive")

/-- Reads the files and compiles the request. -/
def compile (o : Options) (files : Files) (clock : Instant) : Checked Json := do
  let tables ← readTables files o.config
  let table ← Table.findIn tables o.table
  let catalog ← readOptional files "catalog" (fun j => some <$> Catalog.ofJson j) none o.catalog
  table.validate catalog
  let settings : Settings := {}
  let dialect ← match o.dialect with
    | some name => Dialect.ofName name
    | none => pure settings.dialect
  let params ← readOptional files "params" Params.ofJson {} o.params
  let context ← readOptional files "context" Context.ofJson {} o.context
  statements table dialect o.mode params context clock

/-- A value on lines of its own. -/
def lines (j : Json) : Bytes := j.pretty ++ [Ascii.newline]

/-- Runs the program. `clock` is the time of requests that have none. -/
def run (program : Bytes) (arguments : List Bytes) (files : Files) (clock : Instant) : Result :=
  match parseArguments {} arguments with
  | .help => { exit := 0, stdout := usage program }
  | .unknown argument =>
    { exit := 2
      stdout := usage program
      stderr := Bytes.ofString "Unknown argument: " ++ argument ++ "\n" }
  | .compile o =>
    if o.config.isEmpty || o.table.isEmpty then { exit := 2, stdout := usage program }
    else match compile o files clock with
      | .ok value => { exit := 0, stdout := lines value }
      | .error fault => { exit := 1, stdout := lines fault.toJson }

end Cli

end TableQuery

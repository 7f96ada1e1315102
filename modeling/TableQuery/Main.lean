import Std.Time.DateTime.Timestamp
import TableQuery.Cli

/-!
# The program

Reads the files that the arguments name, runs the command line on them, and prints the result.
-/

open TableQuery

/-- The content of a file, none if it cannot be read. -/
def readFileBytes (path : String) : IO (Option Bytes) := do
  try
    return some (← IO.FS.readBinFile path).data.toList
  catch _ =>
    return none

/-- The files that can be read among the arguments. -/
def readArguments (arguments : List String) : IO (List (Bytes × Bytes)) := do
  let mut files := []
  for argument in arguments do
    if let some content ← readFileBytes argument then
      files := (Bytes.ofString argument, content) :: files
  return files

/-- The time, in milliseconds from the start of 1970. -/
def currentTime : IO Instant := do
  let now ← Std.Time.Timestamp.now
  return Instant.ofMilliseconds (Int64.ofInt now.toMillisecondsSinceUnixEpoch.val)

def main (arguments : List String) : IO UInt32 := do
  let files ← readArguments arguments
  let lookUp (path : Bytes) : Option Bytes :=
    (files.find? fun entry => entry.1 == path).map Prod.snd
  let result := Cli.run "table_query" (arguments.map Bytes.ofString) lookUp (← currentTime)
  (← IO.getStdout).write ⟨result.stdout.toArray⟩
  (← IO.getStderr).write ⟨result.stderr.toArray⟩
  return result.exit.toUInt32

import Std.Time.DateTime
import PixQuery.CommandLine.Run

/-!
# The command line

Reads the files that an invocation names, carries it out, and prints what it says.
-/

namespace PixQuery

/-- What is printed when the arguments make no invocation. -/
def usage : String :=
  "usage: pixql [--output text|json] [--quiet] [--verbose] " ++
  "[--config FILE] [--set JSON] COMMAND\n" ++
  "commands:\n" ++
  "  compile QUERY [--metadata FILE]\n" ++
  "  forecast QUERY --cursor N [--metadata FILE]\n" ++
  "  lex QUERY\n" ++
  "  trace QUERY\n" ++
  "  table [--grammar FILE]\n" ++
  "  validate PLAN\n" ++
  "  render PLAN\n"

/-- The content of a file, if it can be read. -/
def contentOf (name : String) : IO (Option String) := do
  match ← (IO.FS.readFile name).toBaseIO with
  | .ok content => return some content
  | .error _ => return none

/-- The year of the clock, in universal time. -/
def thisYear : IO Int := do
  let now ← Std.Time.Timestamp.now
  return (Std.Time.PlainDate.ofEpochDay now.toSecondsSinceUnixEpoch.toDays).year

end PixQuery

open PixQuery in
/-- Carry out what the arguments say. -/
def main (arguments : List String) : IO UInt32 := do
  match CommandLine.Invocation.ofArguments? arguments with
  | none =>
    IO.eprint usage
    return 2
  | some invocation =>
    let contents ← invocation.fileNames.mapM fun name => do return (name, ← contentOf name)
    let files (name : String) : Option String := (contents.lookup name).join
    let outcome := invocation.run files (← thisYear)
    IO.print outcome.stdout
    IO.eprint outcome.stderr
    return UInt32.ofNat outcome.exit

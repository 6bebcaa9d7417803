import SetAssoc.CommandLine
/-!
# The program

Reads the files that a command names, and writes what the command makes of them.
-/

namespace SetAssoc.Program

/-- What a path leads to. -/
def readFile (path : String) : IO Trace.File := do
  try
    return .regular (← IO.FS.readBinFile path).toList
  catch
    | .noFileOrDirectory .. => return .missing
    | .inappropriateType .. => return .directory
    | e => throw e

/-- A number that is different every time. -/
def entropy : IO UInt64 := do
  let bytes ← IO.getRandomBytes 8
  return bytes.toList.foldl (fun n b => n * 256 + b.toUInt64) 0

/-- What is written for arguments that make no command. -/
def usage : String := "Usage: setassoc [-d | --debug] <CONFIG> <TRACE>"

/-- Runs the command that the arguments make, and gives its exit status. -/
def runArgs (args : List String) : IO UInt32 := do
  match CommandLine.Command.ofArgs? args with
  | none =>
    IO.eprintln usage
    return 2
  | some cmd =>
    let config ← readFile cmd.configPath
    let trace ← readFile cmd.tracePath
    let outcome := CommandLine.run cmd config trace (← entropy)
    IO.print outcome.output
    IO.eprint outcome.complaint
    return outcome.exit.toUInt32

end SetAssoc.Program

/-- The program. -/
def main (args : List String) : IO UInt32 := SetAssoc.Program.runArgs args

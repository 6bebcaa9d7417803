import SetAssoc.Session
/-!
# The command line

A command names a configuration and a trace, and may ask for details.  What it writes and how it
exits is a function of the two files; reading them is left to the program around it.

How long a command takes is no function of the files, and it is left out.  The flags `-p` and
`--performance`, which would ask for it, are refused like any that do not exist.
-/

namespace SetAssoc.CommandLine

/-- What a command asks for. -/
structure Command where
  /-- The path of the configuration. -/
  configPath : String
  /-- The path of the trace. -/
  tracePath : String
  /-- Tell more than the report. -/
  details : Bool
deriving DecidableEq, Repr

/-- The command that some arguments make: two paths, and the wish for details anywhere among
them.  Any other flag makes no command, and neither does one that asks for the time taken, which
nothing here could tell. -/
def Command.ofArgs? (args : List String) : Option Command :=
  let isDetails (a : String) : Bool := a == "-d" || a == "--debug"
  match args.filter fun a => !isDetails a with
  | [configPath, tracePath] =>
    if configPath.startsWith "-" || tracePath.startsWith "-" then none
    else some { configPath, tracePath, details := args.any isDetails }
  | _ => none

/-! ## What can go wrong -/

/-- Why a command gives no report. -/
inductive Failure where
  /-- There is no such configuration. -/
  | configMissing (path : String) (fault : ReadFault)
  /-- The configuration cannot be read, or is not JSON that configures a cache. -/
  | configUnreadable (reason : String)
  /-- The configuration asks for a cache that cannot be. -/
  | configInvalid (e : GeometryError)
  /-- There is no such trace. -/
  | traceMissing (path : String) (e : TraceError)
  /-- The trace has a bad line, or cannot be read. -/
  | traceBad (e : TraceError)
deriving DecidableEq, Repr

/-- The beginning of every complaint about the text of a configuration. -/
def configUnreadableStart : String := "Couldn't parse the config file: "

/-- The sentence for a failure. -/
def Failure.message : Failure → String
  | .configMissing path fault =>
    s!"Couldn't open the config file at path {path}: {fault.message}"
  | .configUnreadable reason => configUnreadableStart ++ reason
  | .configInvalid e => s!"Invalid cache configuration: {e.message}"
  | .traceMissing path e => s!"Couldn't open the trace file at path {path}: {e.message}"
  | .traceBad e => s!"Simulation failed: {e.message}"

/-- What a command leaves behind. -/
structure Outcome where
  /-- The exit status. -/
  exit : UInt8
  /-- What goes to the standard output. -/
  output : String
  /-- What goes to the standard error. -/
  complaint : String
deriving DecidableEq, Repr

/-! ## Running a command -/

/-- The name of a policy. -/
def policyName : Policy → String
  | .leastRecentlyUsed => "LeastRecentlyUsed"
  | .random => "Random"

/-- A configuration on one line. -/
def describe (c : Config) : String :=
  let seed := match c.seed with
    | none => "None"
    | some n => s!"Some({n})"
  s!"CacheConfig \x7b name: {Text.quote c.name}, way_count: {c.ways}, set_count: {c.sets}, " ++
  s!"block_size_in_bytes: {c.blockBytes}, replacement_policy: {policyName c.policy}, " ++
  s!"seed: {seed} \x7d"

/-- The lines of details on a run. -/
def details (c : Config) (s : Session) : String :=
  s!"Parsed input configuration: {describe c}\n" ++
  s!"Uninitialised cache lines: {s.cache.freeLines} of {s.geometry.lines}\n" ++
  s!"Dirty cache lines: {s.cache.dirtyLines}\n"

/-- The configuration in a file. -/
def readConfig (path : String) : Trace.File → Except Failure Config
  | .missing => .error (.configMissing path .notFound)
  | .directory => .error (.configUnreadable ReadFault.isDirectory.message)
  | .regular bytes => (Config.decode bytes).mapError fun e => .configUnreadable e.message

/-- Everything a command writes to the standard output.  The configuration comes first, then the
cache it asks for, then the trace. -/
def report (cmd : Command) (config trace : Trace.File) (entropy : UInt64) :
    Except Failure String := do
  let c ← readConfig cmd.configPath config
  let s ← (Session.start c entropy).mapError .configInvalid
  let source ← (Trace.Source.ofFile trace).mapError (.traceMissing cmd.tracePath)
  let r := s.run source.items
  match r.error? with
  | some e => .error (.traceBad e)
  | none =>
    return r.state.report.pretty ++ "\n" ++ if cmd.details then details c r.state else ""

/-- Runs a command. -/
def run (cmd : Command) (config trace : Trace.File) (entropy : UInt64) : Outcome :=
  match report cmd config trace entropy with
  | .ok output => { exit := 0, output, complaint := "" }
  | .error f => { exit := 1, output := "", complaint := s!"Error: {Text.quote f.message}\n" }

end SetAssoc.CommandLine

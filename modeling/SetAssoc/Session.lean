import SetAssoc.Config
import SetAssoc.Report
import SetAssoc.Store.Memory
import SetAssoc.Trace.Source
/-!
# Sessions

A session is a configured cache in front of an empty memory, and the latest report on it.  Traces
run on it one after the other, each from where the one before left off.  A trace is run up to its
first bad line, and the report is brought up to date whether it came to its end or not.
-/

namespace SetAssoc

universe u v

/-! ## Traces on a cache -/

/-- What came of a trace. -/
structure Replay (σ : Type u) where
  /-- What happened, in order. -/
  events : List Event
  /-- What was wrong with the first bad line, if there was one. -/
  error? : Option TraceError
  /-- The state after the accesses before that line, or after all of them. -/
  state : σ

/-- Serves the accesses of a trace up to its first bad line. -/
def Cache.replay {g : Geometry} {μ : Type u} {ν : Type v} [Store μ] [Evictor ν] (c : Cache g μ ν) :
    List Trace.Item → Replay (Cache g μ ν)
  | [] => ⟨[], none, c⟩
  | .error e :: _ => ⟨[], some e, c⟩
  | .ok op :: items =>
    let (r, c) := c.access op
    let rest := c.replay items
    { rest with events := r.events ++ rest.events }

/-! ## Sessions -/

/-- A configured cache and the latest report on it. -/
structure Session where
  /-- The shape of the cache. -/
  geometry : Geometry
  /-- The cache. -/
  cache : Cache geometry Memory Lots
  /-- The cache as it was when the last trace ended. -/
  report : Report

namespace Session

/-- A session that has just begun.  The evictions depend on `entropy` where the configuration has
no seed. -/
def start (config : Config) (entropy : UInt64) : Except GeometryError Session :=
  match config.geometry with
  | .error e => .error e
  | .ok g =>
    .ok { geometry := g
          cache := .empty g config.policy {} (config.evictor entropy)
          report := { name := config.name } }

/-- Serves one access.  The report stays as it is. -/
def access (s : Session) (op : Access) : Reply × Session :=
  let (r, cache) := s.cache.access op
  (r, { s with cache })

/-- Runs a trace. -/
def run (s : Session) (items : List Trace.Item) : Replay Session :=
  let r := s.cache.replay items
  let report := Report.ofCache s.report.name r.state
  let ending : List Event := match r.error? with
    | none => [.finished report.accesses report.name]
    | some _ => []
  { events := r.events ++ ending
    error? := r.error?
    state := { s with cache := r.state, report } }

end Session

end SetAssoc

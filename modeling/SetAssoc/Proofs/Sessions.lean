import SetAssoc.Proofs.Address
import SetAssoc.Proofs.Serving
import SetAssoc.Session
/-!
# What a session has served

A session is asked to run traces and to serve single accesses, in any order.  A trace comes to the
accesses before its first bad line, and so all requests together come to one run of accesses, the
one that the cache of the session has served (`served_performAll`).
-/

namespace SetAssoc

universe u v

/-- The accesses of a trace before its first bad line. -/
def Trace.leading : List Trace.Item → List Access
  | .ok op :: items => op :: leading items
  | .error _ :: _ => []
  | [] => []

/-- **A trace on a cache** is a run through its leading accesses. -/
theorem Cache.state_replay {g : Geometry} {μ : Type u} {ν : Type v} [Store μ] [Evictor ν]
    (c : Cache g μ ν) (items : List Trace.Item) :
    (c.replay items).state = (c.run (Trace.leading items)).2 := by
  induction items generalizing c with
  | nil => rfl
  | cons item items ih =>
    cases item with
    | error e => rfl
    | ok op => exact ih _

namespace Session

/-! ## Requests -/

/-- What a session is asked for. -/
inductive Request where
  /-- To run a trace. -/
  | trace (items : List Trace.Item)
  /-- To serve one access. -/
  | access (op : Access)

/-- The accesses that a request comes to. -/
def Request.accesses : Request → List Access
  | .trace items => Trace.leading items
  | .access op => [op]

/-- The accesses that requests come to, one after the other. -/
def accessesOf (requests : List Request) : List Access := requests.flatMap Request.accesses

/-- The session after a request. -/
def perform (s : Session) : Request → Session
  | .trace items => (s.run items).state
  | .access op => (s.access op).2

/-- The session after requests, one after the other. -/
def performAll (s : Session) (requests : List Request) : Session := requests.foldl perform s

theorem performAll_concat (s : Session) (past : List Request) (request : Request) :
    s.performAll (past ++ [request]) = (s.performAll past).perform request := by
  rw [performAll, List.foldl_append]
  rfl

theorem accessesOf_concat (past : List Request) (request : Request) :
    accessesOf (past ++ [request]) = accessesOf past ++ request.accesses := by
  rw [accessesOf, List.flatMap_append, List.flatMap_singleton]
  rfl

/-! ## What was served -/

/-- The session that begins with a fresh cache of a geometry, whatever keystream its lots are drawn
from. -/
def opening (config : Config) (g : Geometry) (lots : Lots) : Session where
  geometry := g
  cache := .empty g config.policy {} lots
  report := { name := config.name }

/-- A session starts exactly if its configuration has a geometry.  Its lots are then those of the
seed or, without one, of the number from elsewhere. -/
theorem start_eq_ok_iff {config : Config} {entropy : UInt64} {s : Session} :
    start config entropy = .ok s ↔
      ∃ g, config.geometry = .ok g ∧ s = opening config g (config.evictor entropy) := by
  unfold start
  cases config.geometry with
  | error e =>
    constructor
    · intro h
      cases h
    · rintro ⟨g, hg, -⟩
      cases hg
  | ok g =>
    constructor
    · intro h
      cases h
      exact ⟨g, rfl, rfl⟩
    · rintro ⟨g', hg, rfl⟩
      cases hg
      rfl

/-- The session is one of this configuration, and its cache has served these accesses since it was
fresh. -/
structure Served (config : Config) (lots : Lots) (s : Session) (ops : List Access) : Prop where
  /-- The cache has the shape that was asked for. -/
  geometry : config.geometry = .ok s.geometry
  /-- The cache is what a fresh one became. -/
  cache : s.cache = ((Cache.empty s.geometry config.policy {} lots).run ops).2
  /-- The report goes by the name that was given. -/
  name : s.report.name = config.name

variable {config : Config} {lots : Lots}

theorem served_opening {g : Geometry} (hg : config.geometry = .ok g) :
    Served config lots (opening config g lots) [] := ⟨hg, rfl, rfl⟩

/-- **One request** adds its accesses to what was served. -/
theorem Served.perform {s : Session} {ops : List Access} (h : Served config lots s ops)
    (request : Request) : Served config lots (s.perform request) (ops ++ request.accesses) := by
  refine ⟨?_, ?_, ?_⟩
  · cases request <;> exact h.geometry
  · rw [Cache.run_append]
    cases request with
    | trace items =>
      show (s.cache.replay items).state = _
      rw [Cache.state_replay, h.cache]
      rfl
    | access op =>
      show (s.cache.access op).2 = _
      rw [h.cache]
      rfl
  · cases request <;> exact h.name

/-- **All requests together** come to one run of the cache. -/
theorem served_performAll {g : Geometry} (hg : config.geometry = .ok g) (requests : List Request) :
    Served config lots ((opening config g lots).performAll requests) (accessesOf requests) := by
  induction requests using List.reverseRecOn with
  | nil => exact served_opening hg
  | append_singleton past request ih =>
    rw [performAll_concat, accessesOf_concat]
    exact ih.perform request

/-- The lines of the cache are as many as the configuration asks for. -/
theorem Served.lines_eq {s : Session} {ops : List Access} (h : Served config lots s ops) :
    s.geometry.lines = config.ways.toNat * config.sets.toNat := by
  obtain ⟨hways, hsets, -⟩ := s.geometry.ofSizes_eq_ok_iff.mp h.geometry
  rw [Geometry.lines, hways, hsets]

/-! ## The report -/

/-- **A trace**, good or bad, brings the report up to date. -/
theorem report_performAll_trace {g : Geometry} (hg : config.geometry = .ok g)
    (requests : List Request) (items : List Trace.Item) :
    let s := (opening config g lots).performAll (requests ++ [.trace items])
    s.report = Report.ofCache config.name s.cache := by
  have hserved : Served config lots ((opening config g lots).performAll requests) _ :=
    served_performAll hg requests
  intro s
  have hs : s = ((opening config g lots).performAll requests).perform (.trace items) :=
    performAll_concat _ requests (.trace items)
  rw [hs, ← hserved.name]
  rfl

/-- Single accesses leave the report alone. -/
theorem report_performAll_access (s : Session) (ops : List Access) :
    (s.performAll (ops.map .access)).report = s.report := by
  induction ops generalizing s with
  | nil => rfl
  | cons op ops ih => exact ih (s.perform (.access op))

end Session

end SetAssoc

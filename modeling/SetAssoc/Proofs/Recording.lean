import SetAssoc.Proofs.Serving
import SetAssoc.Store.Recorded
/-!
# Recording changes nothing

A cache sees of its store the words it reads.  So two stores that answer alike, now and after any
calls, can be taken for each other: whatever is forgotten on the way from one to the other
(`Store.Simulates`), the caches in front of them do the same.  A recorded store answers as the store
that it passes the calls on to, and the record is what is forgotten.
-/

namespace SetAssoc

universe u u' v

/-! ## Stores that answer alike -/

/-- The map keeps the answers of a store, after any calls. -/
structure Store.Simulates {μ : Type u} {μ' : Type u'} [Store μ] [Store μ'] (f : μ → μ') : Prop where
  /-- Both read the same word. -/
  word : ∀ m a, (Store.read (f m) a).1 = (Store.read m a).1
  /-- Reading commutes with the map. -/
  read : ∀ m a, (Store.read (f m) a).2 = f (Store.read m a).2
  /-- Writing commutes with the map. -/
  write : ∀ m a v, Store.write (f m) a v = f (Store.write m a v)

namespace Store.Simulates

variable {μ : Type u} {μ' : Type u'} [Store μ] [Store μ'] {f : μ → μ'} (hf : Store.Simulates f)

include hf

theorem readAll_eq (m : μ) (as : List UInt32) :
    Store.readAll (f m) as = ((Store.readAll m as).1, f (Store.readAll m as).2) := by
  induction as generalizing m with
  | nil => rfl
  | cons a as ih =>
    simp only [Store.readAll, hf.word, hf.read, ih]

theorem writeAll_eq (m : μ) (ws : List (UInt32 × UInt32)) :
    Store.writeAll (f m) ws = f (Store.writeAll m ws) := by
  induction ws generalizing m with
  | nil => rfl
  | cons w ws ih =>
    show Store.writeAll (Store.write (f m) w.1 w.2) ws = _
    rw [hf.write, ih]
    rfl

end Store.Simulates

/-- The store behind a record answers as the recorded one. -/
theorem Recorded.simulates_inner {μ : Type u} [Store μ] :
    Store.Simulates (Recorded.inner : Recorded μ → μ) where
  word _ _ := rfl
  read _ _ := rfl
  write _ _ _ := rfl

/-! ## Caches in front of them -/

namespace Cache

variable {g : Geometry} {μ : Type u} {μ' : Type u'} {ν : Type v}

/-- The cache in front of another store. -/
def carry (c : Cache g μ ν) (f : μ → μ') : Cache g μ' ν where
  policy := c.policy
  sets := c.sets
  store := f c.store
  evictor := c.evictor
  counters := c.counters

/-- The cache with a record in front of its store. -/
def recorded (c : Cache g μ ν) : Cache g (Recorded μ) ν := c.carry fun m => { inner := m }

variable [Store μ] [Store μ'] {f : μ → μ'}

theorem fetch_carry (hf : Store.Simulates f) (a : UInt32) (m : μ) :
    fetch g a (f m) = ((fetch g a m).1, f (fetch g a m).2) := by
  simp only [fetch, hf.readAll_eq]

theorem vacate_carry (hf : Store.Simulates f) (c : Cache g μ ν) (a : UInt32) (way : Fin g.ways) :
    (c.carry f).vacate a way = f (c.vacate a way) := by
  have hhome : (c.carry f).home a = c.home a := rfl
  simp only [vacate, writeBack, hhome]
  split
  · exact hf.writeAll_eq c.store _
  · rfl

/-- What `settle` found or did, with the cache in front of another store. -/
def Settled.carry (s : Settled g μ ν) (f : μ → μ') : Settled g μ' ν where
  way := s.way
  cycles := s.cycles
  events := s.events
  cache := s.cache.carry f

theorem replace_carry (hf : Store.Simulates f) (c : Cache g μ ν) (a : UInt32) (way : Fin g.ways) :
    (c.carry f).replace a way = (c.replace a way).carry f := by
  have hfetch : fetch g a ((c.carry f).vacate a way) =
      ((fetch g a (c.vacate a way)).1, f (fetch g a (c.vacate a way)).2) := by
    rw [vacate_carry hf, fetch_carry hf]
  have hsets : ((c.carry f).replace a way).cache.sets = (c.replace a way).cache.sets := by
    rw [sets_replace, sets_replace, hfetch]
    rfl
  have hstore : ((c.carry f).replace a way).cache.store = f (c.replace a way).cache.store := by
    rw [store_replace, store_replace, hfetch]
  calc (c.carry f).replace a way
      = { way
          cycles := missCycles
          events := (c.replace a way).events
          cache := { (c.replace a way).cache.carry f with
            sets := ((c.carry f).replace a way).cache.sets
            store := ((c.carry f).replace a way).cache.store } } := rfl
    _ = (c.replace a way).carry f := by
        rw [hsets, hstore]
        rfl

variable [Evictor ν]

theorem settle_carry (hf : Store.Simulates f) (c : Cache g μ ν) (a : UInt32) :
    (c.carry f).settle a = (c.settle a).carry f := by
  have hset : (c.carry f).sets[(g.locate a).index] = c.sets[(g.locate a).index] := rfl
  simp only [settle, hset]
  cases findTag c.sets[(g.locate a).index] (g.locate a).tag with
  | hit way => rfl
  | free way => exact replace_carry hf c a way
  | full =>
    let gone := c.policy.victim c.evictor g.ways_pos
    exact replace_carry hf { c with evictor := gone.2 } a gone.1

/-- **An access** takes and answers the same. -/
theorem access_carry (hf : Store.Simulates f) (c : Cache g μ ν) (op : Access) :
    (c.carry f).access op = ((c.access op).1, (c.access op).2.carry f) := by
  simp only [access, settle_carry hf]
  rfl

/-- **A run** takes and answers the same. -/
theorem run_carry (hf : Store.Simulates f) (c : Cache g μ ν) (ops : List Access) :
    (c.carry f).run ops = ((c.run ops).1, (c.run ops).2.carry f) := by
  induction ops generalizing c with
  | nil => rfl
  | cons op ops ih =>
    rw [run_cons, run_cons, access_carry hf, ih]

/-- **A recorded run** is the run itself, and a record of it. -/
theorem run_eq_run_recorded (c : Cache g μ ν) (ops : List Access) :
    c.run ops = ((c.recorded.run ops).1, (c.recorded.run ops).2.carry Recorded.inner) :=
  run_carry Recorded.simulates_inner c.recorded ops

end Cache

end SetAssoc

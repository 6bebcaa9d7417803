import SetAssoc.Access
import SetAssoc.Address
import SetAssoc.Cache.Block
import SetAssoc.Cache.Event
import SetAssoc.Policy.Basic
import SetAssoc.Store.Basic
/-!
# A set-associative write-back cache

A cache stands between a processor and a store.  `Cache.access` serves one access:

1. `Cache.settle` finds the way that holds the block of the address.  If no way does, the block is
   fetched into the first free way, or else into the way that the policy gives up; a changed block
   that stood there goes back to the store first.
2. The word is read from that way or stored in it.
3. The policy reorders the set.

Between a miss and the store whole blocks pass, word by word in ascending order, and the words
written back come before the words fetched.  A hit does not touch the store at all.  Writes change
the cache alone; the store hears of them when the block is evicted.
-/

namespace SetAssoc

universe u v

/-! ## Running totals -/

/-- Cycles for an access that finds its block in the cache. -/
def hitCycles : UInt64 := 0

/-- Cycles for an access that has to go to the store. -/
def missCycles : UInt64 := 50

/-- Totals over all accesses so far. -/
structure Counters where
  /-- Words asked for. -/
  reads : UInt64 := 0
  /-- Words stored. -/
  writes : UInt64 := 0
  /-- Accesses that found their block. -/
  hits : UInt64 := 0
  /-- Accesses that had to fetch their block. -/
  misses : UInt64 := 0
  /-- Changed blocks that went back to the store. -/
  writeBacks : UInt64 := 0
  /-- Cycles spent. -/
  cycles : UInt64 := 0
deriving DecidableEq, Repr

namespace Counters

/-- One more hit. -/
def hit (k : Counters) : Counters :=
  { k with hits := k.hits + 1, cycles := k.cycles + hitCycles }

/-- One more miss, with or without a block written back. -/
def miss (k : Counters) (wroteBack : Bool) : Counters :=
  { k with
    misses := k.misses + 1
    cycles := k.cycles + missCycles
    writeBacks := if wroteBack then k.writeBacks + 1 else k.writeBacks }

/-- One more access served. -/
def served (k : Counters) : Access → Counters
  | .read _ => { k with reads := k.reads + 1 }
  | .write .. => { k with writes := k.writes + 1 }

end Counters

/-! ## Caches -/

/-- A cache of a given geometry in front of a store. -/
structure Cache (g : Geometry) (μ : Type u) (ν : Type v) where
  /-- How a full set makes room. -/
  policy : Policy
  /-- The sets, each a row of ways. -/
  sets : Vector (Vector (Block g.blockWords) g.ways) g.sets
  /-- What lies behind the cache. -/
  store : μ
  /-- Who decides on evictions where the policy leaves it open. -/
  evictor : ν
  /-- Totals over all accesses so far. -/
  counters : Counters := {}

/-- The answer to an access. -/
structure Reply where
  /-- Cycles that the access took. -/
  cycles : UInt64
  /-- The word that the access leaves at its address: what a read asked for, or a write stored. -/
  word : UInt32
  /-- What happened, in order. -/
  events : List Event
deriving DecidableEq, Repr

namespace Cache

variable {g : Geometry} {μ : Type u} {ν : Type v}

/-- The cache with every way free. -/
def empty (g : Geometry) (policy : Policy) (store : μ) (evictor : ν) : Cache g μ ν where
  policy
  sets := Vector.replicate g.sets (Vector.replicate g.ways {})
  store
  evictor

/-! ## Traffic with the store -/

/-- The store after a block of set `index` was written back. -/
def writeBack [Store μ] (index : Fin g.sets) (b : Block g.blockWords) (m : μ) : μ :=
  Store.writeAll m ((g.wordsOf index b.tag).zip b.words.toList)

/-- The block around an address, fetched from the store. -/
def fetch [Store μ] (g : Geometry) (a : UInt32) (m : μ) : Block g.blockWords × μ :=
  let words := Store.readAll m (g.wordsFrom (g.blockStart a))
  ({ valid := true
     tag := (g.locate a).tag
     words := ⟨words.1.toArray, by simp [words]⟩ }, words.2)

/-- Where an access found or put its block, and what that took. -/
structure Settled (g : Geometry) (μ : Type u) (ν : Type v) where
  /-- The way that holds the block now. -/
  way : Fin g.ways
  /-- Cycles spent on getting it there. -/
  cycles : UInt64
  /-- What happened on the way, in order. -/
  events : List Event
  /-- The cache with the block in it. -/
  cache : Cache g μ ν

/-- The cache with the block around an address fetched into a way.  A changed block that stands
there goes back to the store first. -/
def replace [Store μ] (c : Cache g μ ν) (a : UInt32) (way : Fin g.ways) : Settled g μ ν :=
  let index := (g.locate a).index
  let old := c.sets[index][way]
  let stale := old.valid && old.dirty
  let m := if stale then writeBack index old c.store else c.store
  let (new, m) := fetch g a m
  let gone : Event := .writeBack (g.assemble 0 (.ofNat index) old.tag) index way
  { way
    cycles := missCycles
    events := (if stale then [gone] else []) ++ [.miss a index way (g.blockStart a)]
    cache := { c with
      sets := c.sets.set index (c.sets[index].set way new)
      store := m
      counters := c.counters.miss stale } }

/-! ## Serving an access -/

/-- The cache with the block around an address in one of its ways. -/
def settle [Store μ] [Evictor ν] (c : Cache g μ ν) (a : UInt32) : Settled g μ ν :=
  let loc := g.locate a
  match findTag c.sets[loc.index] loc.tag with
  | .hit way =>
    { way
      cycles := hitCycles
      events := [.hit a loc.index way]
      cache := { c with counters := c.counters.hit } }
  | .free way => c.replace a way
  | .full =>
    let (way, evictor) := c.policy.victim c.evictor g.ways_pos
    { c with evictor }.replace a way

/-- Serves one access.  After `settle` only the cache it returns is looked at, so that the sets of
that cache can be changed in place. -/
def access [Store μ] [Evictor ν] (c : Cache g μ ν) (op : Access) : Reply × Cache g μ ν :=
  let loc := g.locate op.address
  let s := c.settle op.address
  let set := s.cache.sets[loc.index]
  let old := set[s.way]
  let new := match op with
    | .read _ => old
    | .write _ v => old.store loc.offset v
  let changes : List Event :=
    if new.words[loc.offset] = old.words[loc.offset] then []
    else [.changed op.address loc.index s.way]
  ({ cycles := s.cycles
     word := new.words[loc.offset]
     events := s.events ++ changes },
   { s.cache with
     sets := s.cache.sets.set loc.index (s.cache.policy.reorder (set.set s.way new) s.way)
     counters := s.cache.counters.served op })

/-- Serves accesses one after the other. -/
def run [Store μ] [Evictor ν] (c : Cache g μ ν) : List Access → List Reply × Cache g μ ν
  | [] => ([], c)
  | op :: ops =>
    let (r, c) := c.access op
    let (rs, c) := c.run ops
    (r :: rs, c)

/-! ## Looking in -/

/-- The cache holds the block around an address: some way of its set has a block with its tag. -/
def Holds (c : Cache g μ ν) (a : UInt32) : Prop :=
  ∃ way : Fin g.ways,
    c.sets[(g.locate a).index][way].valid = true ∧
      c.sets[(g.locate a).index][way].tag = (g.locate a).tag

instance (c : Cache g μ ν) (a : UInt32) : Decidable (c.Holds a) :=
  inferInstanceAs (Decidable (∃ _ : Fin g.ways, _))

/-- All ways of all sets. -/
def blocks (c : Cache g μ ν) : List (Block g.blockWords) :=
  c.sets.toList.flatMap Vector.toList

/-- Ways into which no block was ever fetched. -/
def freeLines (c : Cache g μ ν) : Nat := c.blocks.countP fun b => !b.valid

/-- Blocks with changes that the store has not seen. -/
def dirtyLines (c : Cache g μ ν) : Nat := c.blocks.countP fun b => b.valid && b.dirty

/-- The cache after something else happened to the store behind it. -/
def mapStore (c : Cache g μ ν) (f : μ → μ) : Cache g μ ν := { c with store := f c.store }

end Cache

end SetAssoc

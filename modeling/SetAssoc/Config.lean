import SetAssoc.Geometry
import SetAssoc.Json.Record
import SetAssoc.Policy.Basic
/-!
# Configurations

A configuration asks for a cache: a name to report under, the three sizes, the policy, and a seed
for evictions at random.  The sizes need not be those of a cache; `Config.geometry` finds out.
-/

namespace SetAssoc

/-- What someone asks of a cache. -/
structure Config where
  /-- The name to report under. -/
  name : String
  /-- Blocks that one set has room for. -/
  ways : UInt64
  /-- The number of sets. -/
  sets : UInt32
  /-- The size of a block in bytes. -/
  blockBytes : UInt32
  /-- How a full set makes room. -/
  policy : Policy
  /-- The seed of evictions at random, for runs that can be repeated. -/
  seed : Option UInt64
deriving DecidableEq, Repr

namespace Config

/-- The shape of the cache, if its sizes allow for one. -/
def geometry (c : Config) : Except GeometryError Geometry :=
  Geometry.ofSizes c.ways.toNat c.sets.toNat c.blockBytes.toNat

/-- The evictor of the cache.  Without a seed it depends on some number from elsewhere. -/
def evictor (c : Config) (entropy : UInt64) : Lots := .ofSeed (c.seed.getD entropy)

/-! ## Configurations as JSON -/

/-- The fields of a configuration. -/
inductive Field where
  /-- The name to report under. -/
  | name
  /-- Blocks that one set has room for. -/
  | ways
  /-- The number of sets. -/
  | sets
  /-- The size of a block in bytes. -/
  | blockBytes
  /-- How a full set makes room. -/
  | policy
  /-- The seed of evictions at random. -/
  | seed
deriving DecidableEq, Repr

namespace Field

/-- What a field holds. -/
abbrev Value : Field → Type
  | .name => String
  | .ways => UInt64
  | .sets => UInt32
  | .blockBytes => UInt32
  | .policy => Policy
  | .seed => Option UInt64

/-- The name of a field. -/
def label : Field → String
  | .name => "name"
  | .ways => "way_count"
  | .sets => "set_count"
  | .blockBytes => "block_size_in_bytes"
  | .policy => "replacement_policy"
  | .seed => "seed"

end Field

/-- The names of the policies, each with a short one. -/
def policyNames : List (String × Policy) :=
  [("LeastRecentlyUsed", .leastRecentlyUsed), ("lru", .leastRecentlyUsed),
   ("Random", .random), ("random", .random)]

/-- What a configuration looks like. -/
def format : Json.Format Field Field.Value where
  title := "struct CacheConfig"
  fields := [.name, .ways, .sets, .blockBytes, .policy, .seed]
  label := Field.label
  read
    | .name => .text
    | .ways => .size64
    | .sets => .word32
    | .blockBytes => .word32
    | .policy => .variant policyNames
    | .seed => .word64?

/-- The configuration of a draft.  The sizes have to be there; without anything else the cache is
called `cache`, evicts what was least recently used, and has no seed. -/
def build (d : Json.Draft Field Field.Value) : Except Field Config := do
  return { name := (d .name).getD "cache"
           ways := ← d.need .ways
           sets := ← d.need .sets
           blockBytes := ← d.need .blockBytes
           policy := (d .policy).getD .leastRecentlyUsed
           seed := (d .seed).getD none }

/-- The configuration that a JSON text holds. -/
def decode (text : List UInt8) : Except Json.Error Config := format.decode build text

end Config

end SetAssoc

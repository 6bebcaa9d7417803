import SetAssoc.Cache.Basic
import SetAssoc.Json.Record
import SetAssoc.Json.Writer
/-!
# Reports

What is told about a cache once a trace was run: its totals, the words that passed between it and
its store, and the blocks whose changes the store has not seen.
-/

namespace SetAssoc

/-- The result of running traces on a cache. -/
structure Report where
  /-- The name that the configuration gave. -/
  name : String
  /-- Words asked for. -/
  reads : UInt64 := 0
  /-- Words stored. -/
  writes : UInt64 := 0
  /-- Accesses that found their block. -/
  hits : UInt64 := 0
  /-- Accesses that had to fetch their block. -/
  misses : UInt64 := 0
  /-- Changed blocks that went back to the store. -/
  writeBacks : UInt64 := 0
  /-- Cycles spent. -/
  cycles : UInt64 := 0
  /-- Words fetched from the store. -/
  wordsFetched : UInt64 := 0
  /-- Words written back to the store. -/
  wordsWritten : UInt64 := 0
  /-- Blocks with changes that the store has not seen. -/
  dirtyLines : UInt64 := 0
deriving DecidableEq, Repr

namespace Report

universe u v

/-- The report on a cache.  Blocks pass as wholes, so words are counted by the block. -/
def ofCache {g : Geometry} {μ : Type u} {ν : Type v} (name : String) (c : Cache g μ ν) :
    Report where
  name
  reads := c.counters.reads
  writes := c.counters.writes
  hits := c.counters.hits
  misses := c.counters.misses
  writeBacks := c.counters.writeBacks
  cycles := c.counters.cycles
  wordsFetched := c.counters.misses * .ofNat g.blockWords
  wordsWritten := c.counters.writeBacks * .ofNat g.blockWords
  dirtyLines := .ofNat c.dirtyLines

/-- The number of accesses reported. -/
def accesses (r : Report) : UInt64 := r.reads + r.writes

/-! ## Reports as JSON -/

/-- The fields of a report. -/
inductive Field where
  /-- The name that the configuration gave. -/
  | name
  /-- Words asked for. -/
  | reads
  /-- Words stored. -/
  | writes
  /-- Accesses that found their block. -/
  | hits
  /-- Accesses that had to fetch their block. -/
  | misses
  /-- Changed blocks that went back to the store. -/
  | writeBacks
  /-- Cycles spent. -/
  | cycles
  /-- Words fetched from the store. -/
  | wordsFetched
  /-- Words written back to the store. -/
  | wordsWritten
  /-- Blocks with changes that the store has not seen. -/
  | dirtyLines
deriving DecidableEq, Repr

namespace Field

/-- All fields, in their order. -/
def all : List Field :=
  [.name, .reads, .writes, .hits, .misses, .writeBacks, .cycles, .wordsFetched, .wordsWritten,
   .dirtyLines]

/-- What a field holds: a text for the name, and a number otherwise. -/
abbrev Value : Field → Type
  | .name => String
  | _ => UInt64

/-- The name of a field. -/
def label : Field → String
  | .name => "name"
  | .reads => "reads"
  | .writes => "writes"
  | .hits => "hits"
  | .misses => "misses"
  | .writeBacks => "write_backs"
  | .cycles => "cycles"
  | .wordsFetched => "memory_reads"
  | .wordsWritten => "memory_writes"
  | .dirtyLines => "dirty_lines"

end Field

/-- The value of a field. -/
def get (r : Report) : Field → Json.Scalar
  | .name => .text r.name
  | .reads => .count r.reads
  | .writes => .count r.writes
  | .hits => .count r.hits
  | .misses => .count r.misses
  | .writeBacks => .count r.writeBacks
  | .cycles => .count r.cycles
  | .wordsFetched => .count r.wordsFetched
  | .wordsWritten => .count r.wordsWritten
  | .dirtyLines => .count r.dirtyLines

/-- The members of a report, in their order. -/
def members (r : Report) : List (String × Json.Scalar) := Field.all.map fun f => (f.label, r.get f)

/-- The report without white space. -/
def compact (r : Report) : String := Json.compact r.members

/-- The report with a line for each field. -/
def pretty (r : Report) : String := Json.pretty r.members

/-- What a report looks like. -/
def format : Json.Format Field Field.Value where
  title := "struct SimulationResult"
  fields := Field.all
  label := Field.label
  read
    | .name => .text
    | .reads => .word64
    | .writes => .word64
    | .hits => .word64
    | .misses => .word64
    | .writeBacks => .word64
    | .cycles => .word64
    | .wordsFetched => .word64
    | .wordsWritten => .word64
    | .dirtyLines => .word64

/-- The report of a draft, in which every field has to be there. -/
def build (d : Json.Draft Field Field.Value) : Except Field Report := do
  return { name := ← d.need .name
           reads := ← d.need .reads
           writes := ← d.need .writes
           hits := ← d.need .hits
           misses := ← d.need .misses
           writeBacks := ← d.need .writeBacks
           cycles := ← d.need .cycles
           wordsFetched := ← d.need .wordsFetched
           wordsWritten := ← d.need .wordsWritten
           dirtyLines := ← d.need .dirtyLines }

/-- The report that a JSON text holds. -/
def decode (text : List UInt8) : Except Json.Error Report := format.decode build text

end Report

end SetAssoc

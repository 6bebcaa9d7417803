import SetAssoc.Text.Hex
/-!
# What a run reports

Everything worth telling about a run, as data.  How much detail each event is, and how it reads, is
decided here and nowhere else.  Ways are those before an access reorders its set.
-/

namespace SetAssoc

/-- How much detail an event is. -/
inductive Level where
  /-- Each single step. -/
  | trace
  /-- Traffic with the store. -/
  | debug
  /-- Whole runs. -/
  | info
deriving DecidableEq, Repr

/-- The name of a level. -/
def Level.label : Level → String
  | .trace => "TRACE"
  | .debug => "DEBUG"
  | .info => "INFO"

/-- Something that happened during a run. -/
inductive Event where
  /-- The block was there. -/
  | hit (address : UInt32) (index way : Nat)
  /-- A changed block went back to the store to make room. -/
  | writeBack (start : UInt32) (index way : Nat)
  /-- The block was fetched from the store. -/
  | miss (address : UInt32) (index way : Nat) (start : UInt32)
  /-- A word was changed. -/
  | changed (address : UInt32) (index way : Nat)
  /-- A whole trace was run. -/
  | finished (accesses : UInt64) (name : String)
deriving DecidableEq, Repr

namespace Event

/-- The level of an event. -/
def level : Event → Level
  | .hit .. | .changed .. => .trace
  | .writeBack .. | .miss .. => .debug
  | .finished .. => .info

/-- The sentence for an event. -/
def text : Event → String
  | .hit a index way => s!"Hit for {hexWord a} in set {index}, way {way}"
  | .writeBack start index way =>
    s!"Writing back block {hexWord start} from set {index}, way {way}"
  | .miss a index way start =>
    s!"Miss for {hexWord a}, filling set {index}, way {way} from {hexWord start}"
  | .changed a index way =>
    s!"Block in set {index}, way {way} is dirty after writing {hexWord a}"
  | .finished accesses name => s!"Simulated {accesses} accesses for {name}"

/-- The line of a log for an event. -/
def line (e : Event) : String := s!"{e.level.label} {e.text}"

end Event

end SetAssoc

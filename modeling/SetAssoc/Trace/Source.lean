import SetAssoc.Trace.Reader
/-!
# Where traces come from

A file that holds anything is mapped, so that its bytes are there as one window.  What cannot be
mapped is read through a buffer, one bufferful at a time; that goes for an empty file, and also for
a directory, on which every read fails.
-/

namespace SetAssoc.Trace

/-- What a path leads to. -/
inductive File where
  /-- Nothing. -/
  | missing
  /-- A directory. -/
  | directory
  /-- A regular file with these bytes. -/
  | regular (bytes : List UInt8)
deriving DecidableEq, Repr

/-- A trace that is open for reading. -/
inductive Source where
  /-- Its bytes can be taken. -/
  | opened (trace : Opened)
  /-- Every read fails. -/
  | failing (fault : ReadFault)

/-- The number of bytes that a buffer holds. -/
def bufferSize : Nat := 16 * 4096

namespace Source

/-- The bytes lie in memory. -/
@[match_pattern] def resident (trace : Cursor) : Source := .opened (.mapped trace)

/-- The bytes come a bufferful at a time. -/
@[match_pattern] def streamed (trace : Buffered) : Source := .opened (.buffered trace)

/-- Opens what a path leads to.  Each read of a file brings as much as the buffer holds. -/
def ofFile : File → Except TraceError Source
  | .missing => .error (.unreadable .notFound)
  | .directory => .ok (.failing .isDirectory)
  | .regular [] => .ok (.streamed ⟨bufferSize - 1, [], ⟨[], fun _ => bufferSize - 1⟩⟩)
  | .regular (b :: bs) => .ok (.resident ⟨b :: bs⟩)

/-- A single read of at most `k` bytes: the bytes, and the source behind them. -/
def read (k : Nat) : Source → Except TraceError (List UInt8) × Source
  | .opened r => (.ok (Reader.read r k).1, .opened (Reader.read r k).2)
  | .failing fault => (.error (.unreadable fault), .failing fault)

/-- What the trace says, line by line.  A source that fails says so once. -/
def items : Source → List Item
  | .opened r => Reader.items r
  | .failing fault => [.error (.unreadable fault)]

end Source

end SetAssoc.Trace

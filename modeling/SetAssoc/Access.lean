/-!
# Accesses

What a processor asks of its memory: a word, or that a word be kept.
-/

namespace SetAssoc

/-- A single access to memory. -/
inductive Access where
  /-- Asks for the word at an address. -/
  | read (address : UInt32)
  /-- Stores a word at an address. -/
  | write (address value : UInt32)
deriving DecidableEq, Repr

/-- The address that an access goes to. -/
def Access.address : Access → UInt32
  | .read a => a
  | .write a _ => a

end SetAssoc

/-!
# Stores — what lies behind a cache

A store answers reads and takes writes of whole words, one address at a time and in the order of
the calls.  It is the only thing a cache talks to, so whatever a cache does outside itself shows in
its calls to the store.

A read hands back a store as well: keeping a record of the calls is already a change.
-/

namespace SetAssoc

universe u

/-- Word storage addressed by 32-bit addresses. -/
class Store (μ : Type u) where
  /-- The word at an address, and the store after the call. -/
  read : μ → UInt32 → UInt32 × μ
  /-- The store after a word was written to an address. -/
  write : μ → UInt32 → UInt32 → μ

namespace Store

variable {μ : Type u} [Store μ]

/-- Reads one word after the other. -/
def readAll (m : μ) : List UInt32 → List UInt32 × μ
  | [] => ([], m)
  | a :: as =>
    let (v, m) := read m a
    let (vs, m) := readAll m as
    (v :: vs, m)

/-- Writes one word after the other, each with its address. -/
def writeAll (m : μ) (words : List (UInt32 × UInt32)) : μ :=
  words.foldl (fun m w => write m w.1 w.2) m

@[simp] theorem length_readAll (m : μ) (as : List UInt32) :
    (readAll m as).1.length = as.length := by
  induction as generalizing m with
  | nil => rfl
  | cons a as ih => simp [readAll, ih]

end Store

/-! ## Calls -/

/-- One call to a store, with the word that passed. -/
inductive Call where
  /-- A read, and the word it was answered with. -/
  | read (address value : UInt32)
  /-- A write, and the word it left. -/
  | write (address value : UInt32)
deriving DecidableEq, Repr

namespace Call

/-- The address of a read. -/
def readAddress? : Call → Option UInt32
  | .read a _ => some a
  | .write _ _ => none

/-- The address of a write. -/
def writeAddress? : Call → Option UInt32
  | .read _ _ => none
  | .write a _ => some a

end Call

end SetAssoc

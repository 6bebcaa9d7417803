/-!
# Blocks

A way of a set holds a block: its words, the tag that says which words they are, and two bits.
Until the *valid* bit is set the way is free and the rest means nothing; the *dirty* bit says that
a word was changed since the block was fetched, so that memory is out of date.
-/

namespace SetAssoc

/-- The contents of one way, for blocks of `n` words. -/
structure Block (n : Nat) where
  /-- A block has been fetched into this way. -/
  valid : Bool := false
  /-- A word differs from what was fetched. -/
  dirty : Bool := false
  /-- Which block of the set this is. -/
  tag : UInt32 := 0
  /-- The words, in the order of their addresses. -/
  words : Vector UInt32 n := Vector.replicate n 0
deriving DecidableEq, Repr

namespace Block

variable {n : Nat}

/-- The block with one word stored.  Storing the word it holds already changes nothing, so it
leaves a clean block clean. -/
def store (b : Block n) (i : Fin n) (v : UInt32) : Block n :=
  if b.words[i] = v then b else { b with dirty := true, words := b.words.set i v }

end Block

/-! ## Searching a set -/

/-- Where a tag is, or could go, within a set of `n` ways. -/
inductive Found (n : Nat) where
  /-- This way holds the block. -/
  | hit (way : Fin n)
  /-- No way holds the block, and this is the first free one. -/
  | free (way : Fin n)
  /-- No way holds the block, and none is free. -/
  | full
deriving DecidableEq, Repr

/-- The search for a tag, in the order of the ways. -/
def findTag {w n : Nat} (set : Vector (Block n) w) (tag : UInt32) : Found w :=
  match set.findFinIdx? (fun b => b.valid && b.tag == tag) with
  | some way => .hit way
  | none =>
    match set.findFinIdx? (fun b => !b.valid) with
    | some way => .free way
    | none => .full

end SetAssoc

import SetAssoc.Geometry
/-!
# Where an address belongs

From the low end, an address is a byte offset within its block, the index of a set, and a tag that
tells apart the blocks of one set.  `Geometry.locate` reads these fields off; `Geometry.assemble`
puts fields together again.  Of the offset only the word counts: two addresses within one word have
one location.
-/

namespace SetAssoc

/-- The place of a word: the set its block belongs to, the block's tag there, and the word's
position within the block. -/
structure Location (g : Geometry) where
  /-- Position of the word within its block. -/
  offset : Fin g.blockWords
  /-- The set that the block belongs to. -/
  index : Fin g.sets
  /-- What tells the block apart from the others of its set. -/
  tag : UInt32
deriving DecidableEq, Repr

namespace Geometry

variable (g : Geometry)

theorem offset_lt (a : Nat) : a % g.blockBytes / 4 < g.blockWords := by
  have h := Nat.mod_lt a g.blockBytes_pos
  have := g.blockWords_mul_four
  omega

/-- The location of the word at an address, byte bits dropped. -/
def locate (a : UInt32) : Location g where
  offset := ⟨a.toNat % g.blockBytes / 4, g.offset_lt a.toNat⟩
  index := ⟨a.toNat / g.blockBytes % g.sets, Nat.mod_lt _ g.sets_pos⟩
  tag := .ofNat (a.toNat / g.blockBytes / g.sets)

/-- The address with these fields.  Fields wider than their place run into the next one, and bits
beyond the 32nd are lost. -/
def assemble (offset index tag : UInt32) : UInt32 :=
  tag <<< .ofNat (g.offsetBits + g.indexBits) ||| index <<< .ofNat g.offsetBits ||| offset <<< 2

/-- The address of the first word of the block around an address. -/
def blockStart (a : UInt32) : UInt32 :=
  .ofNat (a.toNat / g.blockBytes * g.blockBytes)

/-- The addresses of the words of the block that starts at `start`, in ascending order. -/
def wordsFrom (start : UInt32) : List UInt32 :=
  (List.range g.blockWords).map fun i => start + 4 * .ofNat i

/-- The addresses of the words of the block with this index and tag, in ascending order. -/
def wordsOf (index : Fin g.sets) (tag : UInt32) : List UInt32 :=
  (List.range g.blockWords).map fun i => g.assemble (.ofNat i) (.ofNat index) tag

@[simp] theorem length_wordsFrom (start : UInt32) :
    (g.wordsFrom start).length = g.blockWords := by simp [wordsFrom]

@[simp] theorem length_wordsOf (index : Fin g.sets) (tag : UInt32) :
    (g.wordsOf index tag).length = g.blockWords := by simp [wordsOf]

end Geometry

end SetAssoc

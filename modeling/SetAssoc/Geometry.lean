/-!
# The shape of a cache

A cache is a number of sets, each set a number of ways, each way room for one block of consecutive
words.  The number of sets and the size of a block are powers of two, so `Geometry` keeps their
exponents: those are the widths of the two address fields below the tag, and an address has 32 bits
to share out.

`Geometry.ofSizes` is the only road from three plain sizes to a `Geometry`.  It refuses exactly the
sizes for which an address could not be split, and says why.
-/

namespace SetAssoc

/-! ## Refused sizes -/

/-- Why three sizes are not the shape of a cache. -/
inductive GeometryError where
  /-- There is no way to put a block in. -/
  | zeroWays
  /-- The number of sets is not a power of two. -/
  | setsNotPowerOfTwo (sets : Nat)
  /-- The size of a block is not a power of two. -/
  | blockNotPowerOfTwo (bytes : Nat)
  /-- A block is too small for a single word. -/
  | blockBelowWord (bytes : Nat)
  /-- Offset and index take all 32 bits of an address, so blocks could not be told apart. -/
  | tagSqueezedOut (offsetBits indexBits : Nat)
deriving DecidableEq, Repr

/-- The sentence shown to the person who asked for the cache. -/
def GeometryError.message : GeometryError → String
  | .zeroWays => "a cache needs at least one way per set"
  | .setsNotPowerOfTwo sets => s!"set count {sets} is not a power of two"
  | .blockNotPowerOfTwo bytes => s!"block size of {bytes} bytes is not a power of two"
  | .blockBelowWord bytes => s!"block size of {bytes} bytes is smaller than a word"
  | .tagSqueezedOut offsetBits indexBits =>
    s!"{offsetBits} offset bits and {indexBits} set index bits" ++
      " leave no tag bits in a 32-bit address"

/-! ## Geometries -/

/-- The exponent of a power of two, and nothing for any other number. -/
def exponent? (n : Nat) : Option Nat :=
  if Nat.pow 2 n.log2 = n then some n.log2 else none

theorem eq_pow_of_exponent? {n k : Nat} (h : exponent? n = some k) :
    n = Nat.pow 2 k := by
  unfold exponent? at h
  split at h
  · next hn => cases h; exact hn.symm
  · cases h

theorem exponent?_pow (k : Nat) : exponent? (Nat.pow 2 k) = some k := by
  simp [exponent?, Nat.log2_two_pow]

/-- The shape of a cache: ways per set, and the exponents of set count and block size. -/
structure Geometry where
  /-- Blocks that one set has room for. -/
  ways : Nat
  /-- Width of the set index within an address. -/
  indexBits : Nat
  /-- Width of the byte offset within a block. -/
  offsetBits : Nat
  /-- Every set has room for a block. -/
  ways_pos : 0 < ways
  /-- A block holds at least one word of four bytes. -/
  two_le_offsetBits : 2 ≤ offsetBits
  /-- At least one bit of an address is left for the tag. -/
  bits_lt : offsetBits + indexBits < 32
deriving DecidableEq, Repr

namespace Geometry

/-- The geometry with these sizes.  The sizes are checked in the order of the arguments, and the
room for a tag last. -/
def ofSizes (ways sets blockBytes : Nat) : Except GeometryError Geometry :=
  if hw : ways = 0 then
    .error .zeroWays
  else
    match exponent? sets with
    | none => .error (.setsNotPowerOfTwo sets)
    | some indexBits =>
      match exponent? blockBytes with
      | none => .error (.blockNotPowerOfTwo blockBytes)
      | some offsetBits =>
        if ho : offsetBits < 2 then
          .error (.blockBelowWord blockBytes)
        else if ht : 32 ≤ offsetBits + indexBits then
          .error (.tagSqueezedOut offsetBits indexBits)
        else
          .ok { ways, indexBits, offsetBits
                ways_pos := by omega
                two_le_offsetBits := by omega
                bits_lt := by omega }

variable (g : Geometry)

/-- The number of sets. -/
def sets : Nat := Nat.pow 2 g.indexBits

/-- The size of a block in bytes. -/
def blockBytes : Nat := Nat.pow 2 g.offsetBits

/-- The size of a block in words of four bytes. -/
def blockWords : Nat := Nat.pow 2 (g.offsetBits - 2)

/-- Room for blocks in the whole cache. -/
def lines : Nat := g.ways * g.sets

/-- The address bits that select a byte within a block. -/
def offsetMask : Nat := g.blockBytes - 1

/-- The bits of a block number that select a set. -/
def indexMask : Nat := g.sets - 1

theorem sets_pos : 0 < g.sets := Nat.two_pow_pos _

theorem blockBytes_pos : 0 < g.blockBytes := Nat.two_pow_pos _

theorem blockWords_pos : 0 < g.blockWords := Nat.two_pow_pos _

/-- A word is four bytes. -/
theorem blockWords_mul_four : g.blockWords * 4 = g.blockBytes := by
  have h := g.two_le_offsetBits
  have hb : g.offsetBits = g.offsetBits - 2 + 2 := by omega
  rw [blockBytes, hb]
  exact (Nat.pow_add 2 (g.offsetBits - 2) 2).symm

end Geometry

end SetAssoc

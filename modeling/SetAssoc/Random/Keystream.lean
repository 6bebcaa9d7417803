import SetAssoc.Random.ChaCha
/-!
# Reproducible random words

A `Keystream` is the sequence of words of ChaCha blocks 0, 1, 2, … under one key, read from the
front.  No word is skipped: a draw of 64 bits takes the next two words, low word first, even where
they belong to two blocks.  Equal seeds give equal keys, hence equal sequences.
-/

namespace SetAssoc

/-- A sequence of words, of which some have been drawn. -/
structure Keystream where
  /-- The key that all blocks share. -/
  key : Vector UInt32 8
  /-- The number of the block that comes after the words at hand. -/
  counter : UInt64 := 0
  /-- The words of the current block that were not drawn yet. -/
  pending : List UInt32 := []
deriving Repr

namespace Keystream

/-! ## Seeds -/

/-- One step of the congruential generator that stretches a seed into a key. -/
def stretch (s : UInt64) : UInt64 := s * 6364136223846793005 + 11634580027462260723

/-- The key word read off a generator state: high bits folded down, then turned right by the top
five bits. -/
def keyWord (s : UInt64) : UInt32 :=
  let x := (((s >>> 18) ^^^ s) >>> 27).toUInt32
  let k := (s >>> 59).toUInt32
  x >>> k ||| x <<< ((32 - k) % 32)

/-- The sequence of a seed. -/
def ofSeed (seed : UInt64) : Keystream where
  key := Vector.ofFn fun i : Fin 8 => keyWord (Nat.repeat stretch (i + 1) seed)

/-! ## Draws -/

/-- The next word. -/
def next (s : Keystream) : UInt32 × Keystream :=
  match s.pending with
  | w :: ws => (w, { s with pending := ws })
  | [] =>
    let b := ChaCha.block s.key s.counter
    (b[0], { s with counter := s.counter + 1, pending := b.toList.tail })

/-- The next word as bits. -/
def next32 (s : Keystream) : BitVec 32 × Keystream :=
  let (w, s) := s.next
  (w.toBitVec, s)

/-- The next two words as bits, the second one on top. -/
def next64 (s : Keystream) : BitVec 64 × Keystream :=
  let (low, s) := s.next
  let (high, s) := s.next
  (high.toBitVec ++ low.toBitVec, s)

end Keystream

end SetAssoc

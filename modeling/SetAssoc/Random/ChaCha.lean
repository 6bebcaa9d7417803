/-!
# A keystream of twelve ChaCha rounds

The block function turns sixteen words — four constants, a key of eight, a block counter of two and
a nonce of two — into sixteen that look random.  Six double rounds mix them, and the words mixed
from are added again at the end, so a block cannot be run backwards.  The nonce is zero here.
-/

namespace SetAssoc.ChaCha

/-- Sixteen words, in four rows of four. -/
abbrev State := Vector UInt32 16

/-- The word turned left by `k` bits, for `0 < k < 32`. -/
def rotateLeft (x k : UInt32) : UInt32 := x <<< k ||| x >>> (32 - k)

/-! ## The rounds -/

/-- Mixes four words of a state: four times one word is added to a second, and that sum turned into
a third. -/
def quarterRound (s : State) (a b c d : Fin 16) : State :=
  let s := s.set a (s[a] + s[b])
  let s := s.set d (rotateLeft (s[d] ^^^ s[a]) 16)
  let s := s.set c (s[c] + s[d])
  let s := s.set b (rotateLeft (s[b] ^^^ s[c]) 12)
  let s := s.set a (s[a] + s[b])
  let s := s.set d (rotateLeft (s[d] ^^^ s[a]) 8)
  let s := s.set c (s[c] + s[d])
  s.set b (rotateLeft (s[b] ^^^ s[c]) 7)

/-- One round down the columns and one along the diagonals. -/
def doubleRound (s : State) : State :=
  let s := quarterRound s 0 4 8 12
  let s := quarterRound s 1 5 9 13
  let s := quarterRound s 2 6 10 14
  let s := quarterRound s 3 7 11 15
  let s := quarterRound s 0 5 10 15
  let s := quarterRound s 1 6 11 12
  let s := quarterRound s 2 7 8 13
  quarterRound s 3 4 9 14

/-! ## The block function -/

/-- The words that a block is mixed from. -/
def initial (key : Vector UInt32 8) (counter : UInt64) : State :=
  #v[0x61707865, 0x3320646e, 0x79622d32, 0x6b206574,
     key[0], key[1], key[2], key[3],
     key[4], key[5], key[6], key[7],
     counter.toUInt32, (counter >>> 32).toUInt32, 0, 0]

/-- The sixteen words of one block of the keystream. -/
def block (key : Vector UInt32 8) (counter : UInt64) : State :=
  let s := initial key counter
  Vector.zipWith (· + ·) (Nat.repeat doubleRound 6 s) s

end SetAssoc.ChaCha

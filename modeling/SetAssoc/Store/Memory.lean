import SetAssoc.Store.Basic
import Std.Data.HashMap
/-!
# Main memory

Four gigabytes of words, of which only the written ones are kept.  Every other word reads as one
fill value.  The two low bits of an address select a byte within its word and are ignored.
-/

namespace SetAssoc

/-- The address of the word around a byte. -/
def wordAddress (a : UInt32) : UInt32 := a - a % 4

/-- Memory that stores the words written to it, over a background of one fill value. -/
structure Memory where
  /-- The words written so far, by word address. -/
  words : Std.HashMap UInt32 UInt32 := ∅
  /-- What a word holds until it is written. -/
  fill : UInt32 := 0

namespace Memory

/-- The word around an address. -/
def get (m : Memory) (a : UInt32) : UInt32 :=
  m.words.getD (wordAddress a) m.fill

/-- The memory with one word replaced. -/
def set (m : Memory) (a v : UInt32) : Memory :=
  { m with words := m.words.insert (wordAddress a) v }

/-- How many words have been written. -/
def size (m : Memory) : Nat := m.words.size

instance : Store Memory where
  read m a := (m.get a, m)
  write m a v := m.set a v

/-- A write is seen at every byte of its word, and nowhere else. -/
theorem get_set (m : Memory) (a v b : UInt32) :
    (m.set a v).get b = if wordAddress a = wordAddress b then v else m.get b := by
  simp only [get, set, Std.HashMap.getD_insert, beq_iff_eq]

end Memory

end SetAssoc

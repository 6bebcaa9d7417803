import SetAssoc.Proofs.Fields
import SetAssoc.Proofs.Totals
/-!
# A cache that checks its steps

The types of `Cache` leave nothing to go wrong: sets and ways are numbered by as many numbers as
there are, a block has a place for every offset, and a geometry leaves bits for the tag.  A
`Machine` is the same cache without these types.  Its rows are lists and its places are plain
numbers, it cuts fields out of addresses by masks and shifts, and it checks every step that could go
wrong: a place must be there, a shift must be less than the width of a word, no bit may be lost on
the way up and none may meet another one, no sum may carry, and no number may go below zero.  Where
a check fails there is no answer.
-/

namespace SetAssoc

universe u v

/-! ## Words -/

namespace Checked

/-- The sum of two words of 32 bits, if it is one. -/
def add32? (x y : UInt32) : Option UInt32 :=
  if x.toNat + y.toNat < UInt32.size then some (x + y) else none

/-- The sum of two words of 64 bits, if it is one. -/
def add64? (x y : UInt64) : Option UInt64 :=
  if x.toNat + y.toNat < UInt64.size then some (x + y) else none

/-- A word moved up, if it has that many bits and none of them is lost. -/
def shiftUp? (x : UInt32) (k : Nat) : Option UInt32 :=
  if k < 32 ∧ x.toNat <<< k < UInt32.size then some (x <<< .ofNat k) else none

/-- A word moved down, if it has that many bits. -/
def shiftDown? (x : UInt32) (k : Nat) : Option UInt32 :=
  if k < 32 then some (x >>> .ofNat k) else none

/-- The bits of two words together, if no bit is in both. -/
def merge? (x y : UInt32) : Option UInt32 := if x &&& y = 0 then some (x ||| y) else none

/-- A number as a word of 32 bits, if it is one. -/
def word? (n : Nat) : Option UInt32 := if n < UInt32.size then some (.ofNat n) else none

/-- The number before, if there is one. -/
def before? (n : Nat) : Option Nat := if 0 < n then some (n - 1) else none

/-- How many bits of a word of 32 bits are clear below the lowest one that is set. -/
def lowZeros (n : Nat) : Nat := ((List.range 32).takeWhile fun k => !n.testBit k).length

theorem add32?_eq {x y : UInt32} (h : x.toNat + y.toNat < 2 ^ 32) : add32? x y = some (x + y) :=
  if_pos h

theorem add64?_eq {x y : UInt64} (h : x.toNat + y.toNat < 2 ^ 64) : add64? x y = some (x + y) :=
  if_pos h

theorem word?_eq {n : Nat} (h : n < 2 ^ 32) : word? n = some (.ofNat n) := if_pos h

theorem shiftUp?_eq {x : UInt32} {k : Nat} (hk : k < 32) (h : x.toNat * 2 ^ k < 2 ^ 32) :
    shiftUp? x k = some (x <<< .ofNat k) := by
  rw [← Nat.shiftLeft_eq] at h
  exact if_pos ⟨hk, h⟩

theorem shiftDown?_eq {k : Nat} (hk : k < 32) (x : UInt32) :
    shiftDown? x k = some (x >>> .ofNat k) := if_pos hk

/-- Fields one above the other have no bit in common. -/
theorem merge?_eq {x y : UInt32} {k : Nat} (hx : 2 ^ k ∣ x.toNat) (hy : y.toNat < 2 ^ k) :
    merge? x y = some (x ||| y) := by
  apply if_pos
  rw [← UInt32.toNat_inj, UInt32.toNat_and]
  apply Nat.eq_of_testBit_eq
  intro i
  obtain ⟨n, hn⟩ := hx
  rw [hn, Nat.mul_comm, Nat.testBit_and, Nat.testBit_mul_two_pow]
  by_cases hi : k ≤ i
  · have hlow : y.toNat < 2 ^ i := Nat.lt_of_lt_of_le hy (Nat.pow_le_pow_right (by decide) hi)
    simp [Nat.testBit_lt_two_pow hlow]
  · simp [hi]

theorem before?_eq {n : Nat} (h : 0 < n) : before? n = some (n - 1) := if_pos h

theorem lowZeros_pow {k : Nat} (hk : k < 32) : lowZeros (2 ^ k) = k := by
  obtain ⟨n, hn⟩ : ∃ n, 32 = k + (n + 1) := ⟨31 - k, by omega⟩
  have hbelow : ∀ i ∈ List.range k, (!(2 ^ k).testBit i) = true := by
    intro i hi
    have hlt := List.mem_range.mp hi
    simp [show k ≠ i by omega]
  rw [lowZeros, hn, List.range_add, List.takeWhile_append_of_pos hbelow, List.range_succ_eq_map,
    List.map_cons, List.takeWhile_cons_of_neg (by simp), List.append_nil, List.length_range]

end Checked

open Checked

/-! ## Fields -/

/-- What it takes to cut the fields out of an address and to put them together. -/
structure Codec where
  /-- Width of the offset. -/
  offsetBits : Nat
  /-- The bits of the offset. -/
  offsetMask : UInt32
  /-- Width of the set index. -/
  indexBits : Nat
  /-- The bits of the set index, once the offset is gone. -/
  indexMask : UInt32
deriving DecidableEq, Repr

namespace Codec

/-- The codec for these sizes, which are checked once more. -/
def ofSizes? (sets blockBytes : Nat) : Option Codec :=
  if (exponent? sets).isSome ∧ (exponent? blockBytes).isSome ∧ 4 ≤ blockBytes ∧
      lowZeros blockBytes + lowZeros sets < 32 then
    some { offsetBits := lowZeros blockBytes
           offsetMask := .ofNat (blockBytes - 1)
           indexBits := lowZeros sets
           indexMask := .ofNat (sets - 1) }
  else none

variable (k : Codec)

/-- Offset, index and tag of an address. -/
def decode? (a : UInt32) : Option (UInt32 × UInt32 × UInt32) :=
  (shiftDown? (a &&& k.offsetMask) 2).bind fun offset =>
  (shiftDown? a k.offsetBits).bind fun line =>
  (shiftDown? line k.indexBits).map fun tag =>
  (offset, line &&& k.indexMask, tag)

/-- The address with these fields. -/
def encode? (offset index tag : UInt32) : Option UInt32 :=
  (shiftUp? tag (k.offsetBits + k.indexBits)).bind fun high =>
  (shiftUp? index k.offsetBits).bind fun middle =>
  (merge? high middle).bind fun line =>
  (shiftUp? offset 2).bind fun low =>
  merge? line low

/-- The address of the first word of the block around an address. -/
def blockStart (a : UInt32) : UInt32 := a &&& ~~~k.offsetMask

/-- The codec of a geometry. -/
def ofGeometry (g : Geometry) : Codec where
  offsetBits := g.offsetBits
  offsetMask := .ofNat g.offsetMask
  indexBits := g.indexBits
  indexMask := .ofNat g.indexMask

variable (g : Geometry)

theorem lowZeros_blockBytes : lowZeros g.blockBytes = g.offsetBits := by
  have hbits := g.bits_lt
  exact lowZeros_pow (by omega)

theorem lowZeros_sets : lowZeros g.sets = g.indexBits := by
  have hbits := g.bits_lt
  exact lowZeros_pow (by omega)

/-- **The sizes of a geometry** pass the second check, too. -/
theorem ofSizes?_eq : ofSizes? g.sets g.blockBytes = some (ofGeometry g) := by
  have hsets : exponent? g.sets = some g.indexBits := exponent?_pow g.indexBits
  have hblock : exponent? g.blockBytes = some g.offsetBits := exponent?_pow g.offsetBits
  have hwords := g.blockWords_pos
  have hbytes := g.blockWords_mul_four
  rw [ofSizes?, hsets, hblock, lowZeros_blockBytes, lowZeros_sets]
  exact if_pos ⟨rfl, rfl, by omega, g.bits_lt⟩

theorem decode?_eq (a : UInt32) : (ofGeometry g).decode? a = some (g.fields a) := by
  have hbits := g.bits_lt
  rw [g.fields_eq, decode?]
  simp only [ofGeometry]
  rw [shiftDown?_eq (by decide), Option.bind_some, shiftDown?_eq (by omega), Option.bind_some,
    shiftDown?_eq (by omega)]
  rfl

theorem blockStart_eq (a : UInt32) : (ofGeometry g).blockStart a = g.blockStart a :=
  (g.blockStart_eq_and a).symm

/-- **Fields in range** go into an address without a loss. -/
theorem encode?_eq {offset index tag : UInt32} (ho : offset.toNat < g.blockWords)
    (hi : index.toNat < g.sets) (ht : tag.toNat < g.tags) :
    (ofGeometry g).encode? offset index tag = some (g.assemble offset index tag) := by
  have hbits := g.bits_lt
  have hwords := g.blockWords_mul_four
  have hpow : 2 ^ (g.offsetBits + g.indexBits) = g.sets * g.blockBytes := by
    rw [Nat.add_comm, Nat.pow_add]
    rfl
  have hall := g.fields_lt ht hi (show offset.toNat * 4 < g.blockBytes by omega)
  have hsplit : (tag.toNat * g.sets + index.toNat) * g.blockBytes =
      tag.toNat * (g.sets * g.blockBytes) + index.toNat * g.blockBytes := by ring
  have hmiddle : index.toNat * g.blockBytes < 2 ^ (g.offsetBits + g.indexBits) := by
    rw [hpow]
    exact Nat.mul_lt_mul_of_pos_right hi g.blockBytes_pos
  -- each field as a number, in its place
  have hhighNum : (tag <<< UInt32.ofNat (g.offsetBits + g.indexBits)).toNat =
      tag.toNat <<< (g.offsetBits + g.indexBits) :=
    Geometry.toNat_shiftLeft_ofNat (by omega) (by rw [hpow]; omega)
  have hmiddleNum : (index <<< UInt32.ofNat g.offsetBits).toNat = index.toNat * g.blockBytes := by
    rw [Geometry.toNat_shiftLeft_ofNat (by omega) (show index.toNat * g.blockBytes < _ by omega),
      Nat.shiftLeft_eq]
    rfl
  have hlowNum : (offset <<< UInt32.ofNat 2).toNat = offset.toNat * 4 := by
    rw [Geometry.toNat_shiftLeft_ofNat (by decide) (show offset.toNat * 4 < _ by omega),
      Nat.shiftLeft_eq]
  have hlineNum : (tag <<< UInt32.ofNat (g.offsetBits + g.indexBits) |||
      index <<< UInt32.ofNat g.offsetBits).toNat =
        (tag.toNat * g.sets + index.toNat) * g.blockBytes := by
    rw [UInt32.toNat_or, hhighNum, hmiddleNum, ← Nat.shiftLeft_add_eq_or_of_lt hmiddle,
      Nat.shiftLeft_eq, hpow, hsplit]
  rw [encode?]
  simp only [ofGeometry]
  rw [shiftUp?_eq (by omega) (by rw [hpow]; omega), Option.bind_some,
    shiftUp?_eq (by omega) (show index.toNat * g.blockBytes < _ by omega), Option.bind_some,
    merge?_eq (k := g.offsetBits + g.indexBits)
      (by rw [hhighNum, Nat.shiftLeft_eq]; exact Nat.dvd_mul_left _ _)
      (by rw [hmiddleNum]; omega), Option.bind_some,
    shiftUp?_eq (by decide) (show offset.toNat * 4 < _ by omega), Option.bind_some,
    merge?_eq (k := g.offsetBits) (by rw [hlineNum]; exact Nat.dvd_mul_left _ _)
      (by rw [hlowNum]; show _ < g.blockBytes; omega)]
  rfl

end Codec

/-! ## Counters -/

namespace Counters

/-- One more hit. -/
def hit? (k : Counters) : Option Counters :=
  (add64? k.hits 1).bind fun hits =>
  (add64? k.cycles hitCycles).map fun cycles =>
  { k with hits, cycles }

/-- One more miss, with or without a block written back. -/
def miss? (k : Counters) (wroteBack : Bool) : Option Counters :=
  (add64? k.misses 1).bind fun misses =>
  (add64? k.cycles missCycles).bind fun cycles =>
  (if wroteBack then add64? k.writeBacks 1 else some k.writeBacks).map fun writeBacks =>
  { k with misses, cycles, writeBacks }

/-- One more access served. -/
def served? (k : Counters) : Access → Option Counters
  | .read _ => (add64? k.reads 1).map fun reads => { k with reads }
  | .write .. => (add64? k.writes 1).map fun writes => { k with writes }

end Counters

/-! ## Machines -/

/-- The contents of one way. -/
structure Line where
  /-- A block has been fetched into this way. -/
  valid : Bool
  /-- A word differs from what was fetched. -/
  dirty : Bool
  /-- Which block of the set this is. -/
  tag : UInt32
  /-- The words, in the order of their addresses. -/
  words : List UInt32
deriving DecidableEq, Repr

namespace Line

/-- The contents of a way that is free. -/
def free (words : Nat) : Line := ⟨false, false, 0, List.replicate words 0⟩

/-- The contents after an access to a word, if there is such a word, and that word. -/
def leave? (b : Line) (op : Access) (offset : Nat) : Option (Line × UInt32) :=
  b.words[offset]?.map fun word =>
  match op with
  | .read _ => (b, word)
  | .write _ w =>
    if word = w then (b, word)
    else ({ b with dirty := true, words := b.words.set offset w }, w)

end Line

/-- A cache in front of a store, with nothing known about its rows. -/
structure Machine (μ : Type u) (ν : Type v) where
  /-- How many ways a set should have. -/
  ways : Nat
  /-- How addresses are read. -/
  codec : Codec
  /-- How a full set makes room. -/
  policy : Policy
  /-- The sets, each a row of ways. -/
  sets : List (List Line)
  /-- What lies behind the cache. -/
  store : μ
  /-- Who decides on evictions where the policy leaves it open. -/
  evictor : ν
  /-- Totals over all accesses so far. -/
  counters : Counters

namespace Machine

variable {μ : Type u} {ν : Type v}

/-- The machine with every way free, if the sizes pass. -/
def ofSizes? (ways sets blockBytes : Nat) (policy : Policy) (m : μ) (e : ν) :
    Option (Machine μ ν) :=
  (Codec.ofSizes? sets blockBytes).map fun codec =>
    { ways, codec, policy
      sets := List.replicate sets (List.replicate ways (Line.free (blockBytes / 4)))
      store := m
      evictor := e
      counters := {} }

/-- The way to evict from a full set, and the evictor after that decision. -/
def victim? [Evictor ν] (s : Machine μ ν) : Option (Nat × ν) :=
  match s.policy with
  | .leastRecentlyUsed => (before? s.ways).map (·, s.evictor)
  | .random => (Evictor.next s.evictor s.ways).1.map (·, (Evictor.next s.evictor s.ways).2)

/-- The way into which a block goes that no way holds, and the evictor after that decision. -/
def room? [Evictor ν] (s : Machine μ ν) (row : List Line) : Option (Nat × ν) :=
  match row.findIdx? (fun b => !b.valid) with
  | some way => some (way, s.evictor)
  | none => s.victim?

/-- The store after words of a block were written back, each with its offset. -/
def writeBack? [Store μ] (k : Codec) (index tag : UInt32) :
    List (UInt32 × Nat) → μ → Option μ
  | [], m => some m
  | (w, i) :: rest, m =>
    (word? i).bind fun offset =>
    (k.encode? offset index tag).bind fun a =>
    writeBack? k index tag rest (Store.write m a w)

/-- The words at these offsets behind an address, fetched from the store. -/
def fetch? [Store μ] (start : UInt32) : List Nat → μ → Option (List UInt32 × μ)
  | [], m => some ([], m)
  | i :: rest, m =>
    (word? i).bind fun offset =>
    (shiftUp? offset 2).bind fun bytes =>
    (add32? start bytes).bind fun a =>
    (fetch? start rest (Store.read m a).2).map fun (words, m') =>
    ((Store.read m a).1 :: words, m')

/-- The store after a way was cleared: a block with changes went back to it. -/
def vacate? [Store μ] (s : Machine μ ν) (index : UInt32) (way : Nat) (old : Line) :
    Option (List Event × μ) :=
  if old.valid && old.dirty then
    (s.codec.encode? 0 index old.tag).bind fun start =>
    (writeBack? s.codec index old.tag old.words.zipIdx s.store).map fun store =>
    ([.writeBack start index.toNat way], store)
  else some ([], s.store)

/-- Where an access found or put its block, and what that took. -/
structure Settled (μ : Type u) (ν : Type v) where
  /-- The way that holds the block now. -/
  way : Nat
  /-- Cycles spent on getting it there. -/
  cycles : UInt64
  /-- What happened on the way, in order. -/
  events : List Event
  /-- The machine with the block in it. -/
  machine : Machine μ ν

/-- The machine with the block around an address fetched into a way. -/
def replace? [Store μ] (s : Machine μ ν) (a index tag : UInt32) (way : Nat) :
    Option (Settled μ ν) :=
  let start := s.codec.blockStart a
  s.sets[index.toNat]?.bind fun row =>
  row[way]?.bind fun old =>
  (s.vacate? index way old).bind fun (gone, m) =>
  (fetch? start (List.range old.words.length) m).bind fun (words, store) =>
  (s.counters.miss? (old.valid && old.dirty)).map fun counters =>
  { way
    cycles := missCycles
    events := gone ++ [.miss a index.toNat way start]
    machine := { s with
      sets := s.sets.set index.toNat (row.set way ⟨true, false, tag, words⟩)
      store, counters } }

/-- The machine with the block around an address in one of its ways. -/
def settle? [Store μ] [Evictor ν] (s : Machine μ ν) (a index tag : UInt32) :
    Option (Settled μ ν) :=
  s.sets[index.toNat]?.bind fun row =>
  match row.findIdx? (fun b => b.valid && b.tag == tag) with
  | some way =>
    s.counters.hit?.map fun counters =>
    { way
      cycles := hitCycles
      events := [.hit a index.toNat way]
      machine := { s with counters } }
  | none =>
    (s.room? row).bind fun (way, evictor) =>
    { s with evictor }.replace? a index tag way

/-- The machine after the word was read from a way or stored in it, and the answer. -/
def serve? (s : Settled μ ν) (op : Access) (offset index : Nat) :
    Option (Reply × Machine μ ν) :=
  s.machine.sets[index]?.bind fun row =>
  row[s.way]?.bind fun old =>
  old.words[offset]?.bind fun before =>
  (old.leave? op offset).bind fun (new, word) =>
  (s.machine.policy.reorder? (row.set s.way new) s.way).bind fun (_, row) =>
  (s.machine.counters.served? op).map fun counters =>
  ({ cycles := s.cycles
     word
     events := s.events ++ if word = before then [] else [.changed op.address index s.way] },
   { s.machine with sets := s.machine.sets.set index row, counters })

/-- Serves one access. -/
def access? [Store μ] [Evictor ν] (s : Machine μ ν) (op : Access) :
    Option (Reply × Machine μ ν) :=
  (s.codec.decode? op.address).bind fun (offset, index, tag) =>
  (s.settle? op.address index tag).bind fun settled =>
  serve? settled op offset.toNat index.toNat

/-- Serves accesses one after the other. -/
def run? [Store μ] [Evictor ν] (s : Machine μ ν) : List Access → Option (List Reply × Machine μ ν)
  | [] => some ([], s)
  | op :: ops =>
    (s.access? op).bind fun (r, s) =>
    (s.run? ops).map fun (rs, s) =>
    (r :: rs, s)

end Machine

end SetAssoc

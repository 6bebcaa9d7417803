import SetAssoc.Random.Uniform
/-!
# Evictors — who decides which block has to go

When every way of a set is taken, a block has to make room for another.  An evictor names the way,
and its state moves on with every decision.  Asked about a set without ways it may have no answer;
asked about any other set it names one of its ways, which is a law of the class.

Two evictors are given: a `Rota`, which goes through a list again and again, and `Lots`, which
draws from a keystream.
-/

namespace SetAssoc

universe u

/-- Sources of decisions on what to evict. -/
class Evictor (ν : Type u) where
  /-- The way to evict from a set of `n` ways, and the evictor after the decision. -/
  next : ν → (n : Nat) → Option Nat × ν
  /-- Where there are ways, one of them is named. -/
  next_lt (s : ν) {n : Nat} (hn : 0 < n) : ∃ w, (next s n).1 = some w ∧ w < n

namespace Evictor

variable {ν : Type u} [Evictor ν]

theorem isSome_next (s : ν) {n : Nat} (hn : 0 < n) : (next s n).1.isSome := by
  obtain ⟨w, hw, -⟩ := next_lt s hn
  simp [hw]

theorem get_next_lt (s : ν) {n : Nat} (hn : 0 < n) : (next s n).1.get (isSome_next s hn) < n := by
  obtain ⟨w, hw, hlt⟩ := next_lt s hn
  simpa [hw] using hlt

/-- The way to evict from a set that has ways. -/
def pick (s : ν) {n : Nat} (hn : 0 < n) : Fin n × ν :=
  (⟨(next s n).1.get (isSome_next s hn), get_next_lt s hn⟩, (next s n).2)

end Evictor

/-! ## Rotas -/

/-- Ways to be named in turn, over and over.  Entries beyond the set count round it. -/
structure Rota where
  /-- The entries still ahead, the next one first. -/
  entries : List Nat
deriving DecidableEq, Repr

namespace Rota

/-- The next entry, reduced to a set of `n` ways.  The entry goes to the end of the rota before it
is reduced, so it is used up even where there is nothing to reduce it by.  An empty rota names way
0. -/
def next (s : Rota) (n : Nat) : Option Nat × Rota :=
  match s.entries with
  | [] => (some 0, s)
  | w :: rest => (if n = 0 then none else some (w % n), ⟨rest ++ [w]⟩)

theorem next_lt (s : Rota) {n : Nat} (hn : 0 < n) : ∃ w, (s.next n).1 = some w ∧ w < n := by
  unfold next
  split
  · exact ⟨0, rfl, hn⟩
  · next w rest _ => exact ⟨w % n, by simp [Nat.pos_iff_ne_zero.mp hn], Nat.mod_lt _ hn⟩

instance : Evictor Rota where
  next := next
  next_lt := next_lt

end Rota

/-! ## Lots -/

/-- Ways drawn evenly from a keystream. -/
structure Lots where
  /-- Where the randomness comes from. -/
  stream : Keystream
deriving Repr

namespace Lots

/-- Equal seeds draw equal lots. -/
def ofSeed (seed : UInt64) : Lots := ⟨Keystream.ofSeed seed⟩

/-- A way drawn for a set of `n` ways.  Without ways nothing is drawn. -/
def next (s : Lots) (n : Nat) : Option Nat × Lots :=
  if n = 0 then
    (none, s)
  else
    let (w, stream) := s.stream.below64 n
    (some w, ⟨stream⟩)

theorem next_lt (s : Lots) {n : Nat} (hn : 0 < n) : ∃ w, (s.next n).1 = some w ∧ w < n := by
  refine ⟨(s.stream.below64 n).1, ?_, Keystream.choose_lt _ hn _ _⟩
  simp [next, Nat.pos_iff_ne_zero.mp hn]

instance : Evictor Lots where
  next := next
  next_lt := next_lt

end Lots

end SetAssoc

import SetAssoc.Policy.Evictor
/-!
# Replacement policies

Two policies differ in two points: what an access does to the order of a set, and which way gives
up its block once a set is full.

* *Least recently used* keeps a set in order of recency.  The block accessed moves to the front,
  the blocks that stood before it move back by one, and the last way is the one to evict.
* *Random* leaves the order alone and asks an evictor.
-/

namespace SetAssoc

universe u v

/-- How a set makes room. -/
inductive Policy where
  /-- The block whose last access is longest ago goes. -/
  | leastRecentlyUsed
  /-- An evictor says which block goes. -/
  | random
deriving DecidableEq, Repr

/-! ## Order within a set -/

/-- The list with the element at position `i` moved to the front.  Without such an element nothing
moves. -/
def toFront {α : Type u} (l : List α) (i : Nat) : List α :=
  match l[i]? with
  | some x => x :: l.eraseIdx i
  | none => l

@[simp] theorem length_toFront {α : Type u} (l : List α) (i : Nat) :
    (toFront l i).length = l.length := by
  unfold toFront
  split
  · next x h =>
    have hi := (List.getElem?_eq_some_iff.mp h).1
    simp only [List.length_cons, List.length_eraseIdx, hi, ↓reduceIte]
    omega
  · rfl

namespace Policy

/-- The order of a list after an access to position `i`, and the position of the element accessed.
Recency asks for the element itself, so a position beyond the list has no answer there. -/
def reorder? {α : Type u} (p : Policy) (l : List α) (i : Nat) : Option (Nat × List α) :=
  match p with
  | .leastRecentlyUsed => if i < l.length then some (0, toFront l i) else none
  | .random => some (i, l)

/-- The ways of a set after an access to way `w`. -/
def reorder {α : Type u} {n : Nat} (p : Policy) (ways : Vector α n) (w : Fin n) : Vector α n :=
  match p with
  | .leastRecentlyUsed => ⟨(toFront ways.toList w).toArray, by simp⟩
  | .random => ways

/-! ## Eviction from a full set -/

/-- The way to evict from a full set of `n` ways, if one can be named.  Ways are numbered by words
of 64 bits, which go round: before way 0 comes the greatest word, and recency names that one for a
set without ways. -/
def victim? {ν : Type v} [Evictor ν] (p : Policy) (s : ν) (n : Nat) : Option Nat × ν :=
  match p with
  | .leastRecentlyUsed => (some (if n = 0 then UInt64.size - 1 else n - 1), s)
  | .random => Evictor.next s n

/-- The way to evict from a full set that has ways. -/
def victim {ν : Type v} [Evictor ν] (p : Policy) (s : ν) {n : Nat} (hn : 0 < n) : Fin n × ν :=
  match p with
  | .leastRecentlyUsed => (⟨n - 1, by omega⟩, s)
  | .random => Evictor.pick s hn

end Policy

end SetAssoc

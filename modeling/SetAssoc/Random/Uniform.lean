import SetAssoc.Random.Keystream
/-!
# Even choices

A number of `b` bits times `n` falls into one of `n` equal slices of `2 ^ b`; the slice is the
choice.  The slices hold unequally many numbers unless the tail of each is refused, so a draw whose
place within its slice lies beyond `zone` is thrown away and the next one tried.  More than half of
all draws are kept.

The tries are counted down from the number of words in the whole keystream, so the search ends by
its definition.  It would come back with 0 only if no draw of the whole period were kept.
-/

namespace SetAssoc.Keystream

/-- The last place within a slice at which a draw is kept. -/
def zone (bits n : Nat) : Nat := n * Nat.pow 2 (bits - 1 - n.log2) - 1

/-- The number of words after which a keystream repeats itself: 16 words in each of `2 ^ 64`
blocks. -/
def period : Nat := Nat.pow 2 68

/-- A choice among `0, …, n - 1` by the first draw that is kept, within a number of tries. -/
def choose {bits : Nat} (draw : Keystream → BitVec bits × Keystream) (n : Nat) :
    Nat → Keystream → Nat × Keystream
  | 0, s => (0, s)
  | tries + 1, s =>
    let (v, s) := draw s
    if v.toNat * n % Nat.pow 2 bits ≤ zone bits n then
      (v.toNat * n / Nat.pow 2 bits, s)
    else
      choose draw n tries s

/-- A choice lies in its range. -/
theorem choose_lt {bits : Nat} (draw : Keystream → BitVec bits × Keystream) {n : Nat} (hn : 0 < n)
    (tries : Nat) (s : Keystream) : (choose draw n tries s).1 < n := by
  induction tries generalizing s with
  | zero => exact hn
  | succ tries ih =>
    simp only [choose]
    split
    · refine Nat.div_lt_of_lt_mul ?_
      exact Nat.mul_lt_mul_of_pos_right (draw s).1.isLt hn
    · exact ih _

/-- A choice among `0, …, n - 1` from single words. -/
def below32 (n : Nat) (s : Keystream) : Nat × Keystream := choose next32 n period s

/-- A choice among `0, …, n - 1` from pairs of words. -/
def below64 (n : Nat) (s : Keystream) : Nat × Keystream := choose next64 n period s

/-- A third of `2 ^ 64`, to the precision of a double. -/
def third : Nat := 6148914691236516864

/-- Yes in one case of three. -/
def oneInThree (s : Keystream) : Bool × Keystream :=
  let (v, s) := s.next64
  (v.toNat < third, s)

end SetAssoc.Keystream

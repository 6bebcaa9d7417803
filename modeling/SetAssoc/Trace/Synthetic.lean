import SetAssoc.Access
import SetAssoc.Random.Uniform
import SetAssoc.Text.Hex
/-!
# Made-up traces

A trace drawn from a seed: word-aligned addresses below a span, about one write for two reads, and
values so small that some writes store what is there already.

What the choices come from is left open.  `Dice` are whatever can be seeded and then asked for a
number in a range or for a yes or no, and the range is kept, which is a law of the class.  A
keystream is such a source, and the one that traces are drawn from if nothing else is said.
-/

namespace SetAssoc

/-- Sources of choices. -/
class Dice (σ : Type) where
  /-- Where a seed begins. -/
  ofSeed : UInt64 → σ
  /-- A choice among `0, …, n - 1`, and the source after it. -/
  below : Nat → σ → Nat × σ
  /-- Yes in one case of three, and the source after the choice. -/
  oneInThree : σ → Bool × σ
  /-- Where there is anything to choose from, the choice is in its range. -/
  below_lt (s : σ) {n : Nat} (hn : 0 < n) : (below n s).1 < n

instance : Dice Keystream where
  ofSeed := Keystream.ofSeed
  below := Keystream.below32
  oneInThree := Keystream.oneInThree
  below_lt s _ hn := Keystream.choose_lt Keystream.next32 hn Keystream.period s

/-- The line of a trace for an access. -/
def Access.line : Access → String
  | .read a => s!"R {hexWord a}\n"
  | .write a v => s!"W {hexWord a} {hexNumber v.toNat}\n"

namespace Trace

section Draws

variable {σ : Type} [Dice σ]

/-- An access drawn at random, to an address below `span`. -/
def drawAccess (span : UInt32) (s : σ) : Access × σ :=
  let (place, s) := Dice.below (max span.toNat 4) s
  let address := UInt32.ofNat (place / 4 * 4)
  match Dice.oneInThree s with
  | (true, s) =>
    let (value, s) := Dice.below 16 s
    (.write address (.ofNat value), s)
  | (false, s) => (.read address, s)

/-- A number of accesses drawn at random, one after the other. -/
def drawAccesses (span : UInt32) : Nat → σ → List Access
  | 0, _ => []
  | n + 1, s =>
    let (op, s) := drawAccess span s
    op :: drawAccesses span n s

end Draws

/-- A trace of `length` accesses drawn from a seed. -/
def synthetic (length : Nat) (span : UInt32) (seed : UInt64) (σ : Type := Keystream) [Dice σ] :
    String :=
  String.join ((drawAccesses span length (Dice.ofSeed seed : σ)).map Access.line)

end Trace

end SetAssoc

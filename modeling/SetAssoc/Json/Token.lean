import SetAssoc.Decimal.Binary64
/-!
# The pieces of a JSON text

A JSON text is read as a row of tokens.  A number keeps its digits, since what it is worth depends
on who asks, and a piece of text may be well-formed and yet stand for no text at all: half a
surrogate pair, or bytes that are not UTF-8.  Both matter only to a reader that wants the value, so
the token carries the possibility along.

The row ends at the first place where no token can be read, with a token that no grammar has a use
for.  A reader that stops before that place never hears of it.
-/

namespace SetAssoc.Json

/-- The digits of a number. -/
structure Numeral where
  /-- A minus sign stands in front. -/
  negative : Bool
  /-- The digits before the point. -/
  whole : List Nat
  /-- The digits after the point, if there is one. -/
  fraction : List Nat
  /-- The digits of the power of ten, if there is one, behind the sign of that power. -/
  power : Option (Bool × List Nat)
deriving DecidableEq, Repr

/-- A piece of a JSON text. -/
inductive Token where
  /-- An opening brace. -/
  | openObject
  /-- A closing brace. -/
  | closeObject
  /-- An opening bracket. -/
  | openArray
  /-- A closing bracket. -/
  | closeArray
  /-- What stands between a name and its value. -/
  | colon
  /-- What stands between two elements or members. -/
  | comma
  /-- The word `null`. -/
  | null
  /-- One of the words `true` and `false`. -/
  | boolean (b : Bool)
  /-- A number. -/
  | number (n : Numeral)
  /-- A text between quotes, and what it stands for, if anything. -/
  | text (s : Option String)
  /-- The place where reading tokens came to an end too early. -/
  | broken
deriving DecidableEq, Repr

/-! ## What numbers are worth -/

/-- The value of a number. -/
inductive Number where
  /-- A whole number that fits 64 bits, with or without a sign. -/
  | integer (n : Int)
  /-- Any other number. -/
  | float (negative : Bool) (x : Binary64)
deriving DecidableEq, Repr

namespace Numeral

/-- The number made of the digits of `n` and as many of the following digits as 64 bits have room
for, and how many digits are left over. -/
def absorb (n : Nat) : List Nat → Nat × Nat
  | [] => (n, 0)
  | d :: ds => if n * 10 + d < UInt64.size then absorb (n * 10 + d) ds else (n, ds.length + 1)

/-- The number written by some digits. -/
def ofDigits (ds : List Nat) : Nat := ds.foldl (fun n d => n * 10 + d) 0

/-- The power of ten asked for, or zero. -/
def powerOfTen (x : Numeral) : Int :=
  match x.power with
  | none => 0
  | some (true, ds) => -(ofDigits ds : Int)
  | some (false, ds) => ofDigits ds

/-- The value of a number, unless it is too large for any.  Digits beyond 64 bits count for their
place only.  A whole number without point and power is an integer; minus zero is not, nor is a
number that 64 bits with a sign do not hold. -/
def value? (x : Numeral) : Option Number :=
  let (n, extra) := absorb 0 x.whole
  if x.fraction = [] ∧ x.power = none ∧ extra = 0 ∧ x.negative = false then
    some (.integer n)
  else if x.fraction = [] ∧ x.power = none ∧ extra = 0 ∧ 0 < n ∧ n ≤ UInt64.size / 2 then
    some (.integer (-n))
  else
    let (m, ignored) := absorb n x.fraction
    let e : Int := x.powerOfTen + extra - (x.fraction.length - ignored)
    (Binary64.ofDecimal? m e).map (.float x.negative)

end Numeral

end SetAssoc.Json

import SetAssoc.Decimal.Binary64
/-!
# The shortest decimal of a number

Of all decimals that are nearer to a number than to its neighbours the one with the fewest digits
is written, and of several of that length the one nearest to the number.  For one digit, two digits
and so on the two decimals of that length around the number are tried; seventeen digits are always
enough.
-/

namespace SetAssoc

/-- The decimal `digits * 10 ^ exponent`. -/
structure Decimal where
  /-- The significant digits, read as one number. -/
  digits : Nat
  /-- The weight of the last of them, as a power of ten. -/
  exponent : Int
deriving DecidableEq, Repr

namespace Decimal

/-- The decimal digits of a number, the highest first. -/
def digitsOf (n : Nat) : List Char := Nat.toDigits 10 n

/-- Both sides of `n / d` after the quotient was divided by `10 ^ e`. -/
def shiftTen (n d : Nat) (e : Int) : Nat × Nat :=
  if 0 ≤ e then (n, d * Nat.pow 10 e.toNat) else (n * Nat.pow 10 (-e).toNat, d)

/-- The weight of the first digit of `n / d`, as a power of ten, where neither `n` nor `d` is
zero. -/
def leadingTen (n d : Nat) : Int :=
  if d ≤ n then (digitsOf (n / d)).length - 1 else -(digitsOf ((d - 1) / n)).length

/-- The decimal without zeros at its end. -/
def dropZeros (x : Decimal) : Decimal :=
  if x.digits = 0 ∨ x.digits % 10 ≠ 0 then x else dropZeros ⟨x.digits / 10, x.exponent + 1⟩
termination_by x.digits
decreasing_by show x.digits / 10 < x.digits; omega

/-- The nearest decimal of a given length that reads back as `x`, for `x` other than zero.  The
unit of measure is a quarter of the lowest bit of `x`: half a bit to either side is two units, and
one unit where the next number below is only half as far.  A decimal just on the border reads back
as the number with an even mantissa. -/
def ofLength? (x : Binary64) (length : Nat) : Option Decimal :=
  let unit := (⟨1, x.exponent - 2⟩ : Binary64).ratio
  let middle := 4 * x.mantissa
  let close := x.mantissa = Binary64.leastFull ∧ Binary64.leastExponent < x.exponent
  let t := leadingTen (middle * unit.1) unit.2 - length + 1
  let (n, d) := shiftTen unit.1 unit.2 t
  let low := (if close then middle - 1 else middle - 2) * n
  let high := (middle + 2) * n
  let readsBack (c : Nat) : Bool :=
    if x.mantissa % 2 = 0 then low ≤ c * d && c * d ≤ high else low < c * d && c * d < high
  let c := middle * n / d
  match readsBack c, readsBack (c + 1) with
  | true, true =>
    let twice := 2 * (middle * n)
    let border := (2 * c + 1) * d
    if twice < border ∨ (twice = border ∧ c % 2 = 0) then some ⟨c, t⟩ else some ⟨c + 1, t⟩
  | true, false => some ⟨c, t⟩
  | false, true => some ⟨c + 1, t⟩
  | false, false => none

/-- The shortest decimal that reads back as a number. -/
def shortest (x : Binary64) : Decimal :=
  if x.mantissa = 0 then
    ⟨0, 0⟩
  else
    (((List.range' 1 17).findSome? (ofLength? x)).getD ⟨0, 0⟩).dropZeros

/-! ## Writing a decimal -/

/-- How decimals are written. -/
structure Layout where
  /-- The least weight of a first digit for which all places are written out. -/
  leastPlain : Int
  /-- The greatest weight of a first digit for which all places are written out. -/
  greatestPlain : Int

/-- The digits with the point after the first `k` of them. -/
def withPoint (ds : List Char) (k : Nat) : List Char :=
  ds.take k ++ '.' :: (if ds.length ≤ k then ['0'] else ds.drop k)

/-- The text of a decimal.  Written out it always has a point with a digit on either side;
otherwise the point follows the first digit, unless that stands alone, and the power of ten has a
sign. -/
def render (layout : Layout) (x : Decimal) : String :=
  let ds := digitsOf x.digits
  let e : Int := x.exponent + ds.length - 1
  if layout.leastPlain ≤ e ∧ e ≤ layout.greatestPlain then
    if e < 0 then
      String.ofList ('0' :: '.' :: List.replicate (-e - 1).toNat '0' ++ ds)
    else
      String.ofList (withPoint (ds ++ List.replicate x.exponent.toNat '0') (e.toNat + 1))
  else
    let front := if ds.length = 1 then ds else withPoint ds 1
    let sign := if e < 0 then '-' else '+'
    String.ofList (front ++ 'e' :: sign :: digitsOf e.natAbs)

end Decimal

end SetAssoc

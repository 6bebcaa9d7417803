/-!
# Numbers of double precision

A number that is not negative is `mantissa * 2 ^ exponent`, with a mantissa below `2 ^ 53` and an
exponent from -1074 on.  Among the many such pairs of a number the one with the largest mantissa is
taken.  Every operation rounds its exact result to the nearest number, and of two equally near ones
to the one with an even mantissa.  All of it is integer arithmetic.
-/

namespace SetAssoc

/-- A number of double precision that is not negative. -/
structure Binary64 where
  /-- The significant bits. -/
  mantissa : Nat
  /-- The weight of the lowest of them, as a power of two. -/
  exponent : Int
deriving DecidableEq, Repr

namespace Binary64

/-- The weight of the lowest bit of all. -/
def leastExponent : Int := -1074

/-- The weight of the lowest bit of the largest numbers. -/
def greatestExponent : Int := 971

/-- The least mantissa of 53 bits.  Only the numbers next to zero have a smaller one. -/
def leastFull : Nat := Nat.pow 2 52

/-- Zero. -/
def zero : Binary64 := ⟨0, leastExponent⟩

/-- A quotient rounded to the nearest integer, and to the even one of two. -/
def roundDiv (n d : Nat) : Nat :=
  let q := n / d
  let r := n % d
  if d < 2 * r ∨ (d = 2 * r ∧ q % 2 = 1) then q + 1 else q

/-- The two sides of `n / d` after both were multiplied so that the quotient becomes `2 ^ (-e)`
times as large. -/
def shift (n d : Nat) (e : Int) : Nat × Nat :=
  if 0 ≤ e then (n, d * Nat.pow 2 e.toNat) else (n * Nat.pow 2 (-e).toNat, d)

/-- The greatest power of two that is at most `n / d`, for `n` and `d` other than zero. -/
def leading (n d : Nat) : Int :=
  let e : Int := n.log2 - d.log2
  let (n, d) := shift n d e
  if n < d then e - 1 else e

/-- The number nearest to `n / d`, unless that is beyond the largest one. -/
def ofRatio? (n d : Nat) : Option Binary64 :=
  if n = 0 then
    some zero
  else
    let e := max (leading n d - 52) leastExponent
    let (n, d) := shift n d e
    let m := roundDiv n d
    let x : Binary64 := if m = 2 * leastFull then ⟨leastFull, e + 1⟩ else ⟨m, e⟩
    if x.exponent ≤ greatestExponent then some x else none

/-- The number as a quotient of two integers. -/
def ratio (x : Binary64) : Nat × Nat := shift x.mantissa 1 (-x.exponent)

/-- The number times `10 ^ k`, where that power is rounded first. -/
def mulPowTen? (x : Binary64) (k : Nat) : Option Binary64 := do
  let p ← ofRatio? (Nat.pow 10 k) 1
  ofRatio? (x.ratio.1 * p.ratio.1) (x.ratio.2 * p.ratio.2)

/-- The number divided by `10 ^ k`, where that power is rounded first. -/
def divPowTen? (x : Binary64) (k : Nat) : Option Binary64 := do
  let p ← ofRatio? (Nat.pow 10 k) 1
  ofRatio? (x.ratio.1 * p.ratio.2) (x.ratio.2 * p.ratio.1)

/-- The greatest power of ten that has a number. -/
def greatestPowTen : Nat := 308

/-- The number divided by the greatest power of ten a number of times, or until it is zero. -/
def divGreatest? (x : Binary64) : Nat → Option Binary64
  | 0 => some x
  | times + 1 =>
    if x = zero then some x
    else (x.divPowTen? greatestPowTen).bind fun y => divGreatest? y times

/-- The number for the decimal `n * 10 ^ e`.  First `n` is rounded, then it is multiplied, or
divided by the greatest power of ten as often as it takes and by the rest.  A power of ten that is
too large has no number, so nothing but zero can be multiplied by it. -/
def ofDecimal? (n : Nat) (e : Int) : Option Binary64 := do
  let x ← ofRatio? n 1
  if 0 ≤ e then
    if e.toNat ≤ greatestPowTen then x.mulPowTen? e.toNat
    else if x = zero then some zero
    else none
  else
    let k := (-e).toNat
    let times := (k - 1) / greatestPowTen
    (← x.divGreatest? times).divPowTen? (k - times * greatestPowTen)

end Binary64

end SetAssoc

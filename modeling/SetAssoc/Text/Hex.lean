/-!
# Hexadecimal numbers

Addresses are written with all eight digits and values with as few as will do, both behind `0x` and
with small letters.
-/

namespace SetAssoc

/-- The digits of a number to base 16, the highest first, at least `width` of them. -/
def hexDigits (width n : Nat) : List Char :=
  let ds := Nat.toDigits 16 n
  List.replicate (width - ds.length) '0' ++ ds

/-- A word with all its digits. -/
def hexWord (w : UInt32) : String := String.ofList ('0' :: 'x' :: hexDigits 8 w.toNat)

/-- A number without leading zeros. -/
def hexNumber (n : Nat) : String := String.ofList ('0' :: 'x' :: hexDigits 1 n)

end SetAssoc

import SetAssoc.Trace.Error
/-!
# Operands

An operand is a hexadecimal number of 32 bits, optionally behind `0x`, with letters of either case.
The digits are read from the left, and the first thing that is wrong decides what is reported: a
character that is no digit, or a digit for which 32 bits have no room left.  One plus sign may
stand before the digits.
-/

namespace SetAssoc.Numeral

/-- The value of a hexadecimal digit. -/
def digit? (c : Char) : Option Nat :=
  if '0' ≤ c ∧ c ≤ '9' then some (c.toNat - '0'.toNat)
  else if 'a' ≤ c ∧ c ≤ 'f' then some (c.toNat - 'a'.toNat + 10)
  else if 'A' ≤ c ∧ c ≤ 'F' then some (c.toNat - 'A'.toNat + 10)
  else none

/-- The number whose leading digits make up `n` and whose other digits follow. -/
def digits (n : Nat) : List Char → Except NumeralError Nat
  | [] => .ok n
  | c :: cs =>
    match digit? c with
    | none => .error .invalidDigit
    | some d => if n * 16 + d < UInt32.size then digits (n * 16 + d) cs else .error .overflow

/-- The text without the mark of a hexadecimal number. -/
def dropMark : List Char → List Char
  | '0' :: 'x' :: cs => cs
  | '0' :: 'X' :: cs => cs
  | cs => cs

/-- The number that a text stands for. -/
def parse (text : List Char) : Except NumeralError UInt32 :=
  match dropMark text with
  | [] => .error .empty
  | ['+'] => .error .invalidDigit
  | '+' :: cs => (digits 0 cs).map UInt32.ofNat
  | cs => (digits 0 cs).map UInt32.ofNat

end SetAssoc.Numeral

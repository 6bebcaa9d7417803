import SetAssoc.Access
import SetAssoc.Text.Blank
import SetAssoc.Trace.Numeral
/-!
# Lines of a trace

A line is blank, a comment behind `#`, or an entry: the letter `R` and an address, or the letter
`W`, an address and a value.  White space separates the parts of an entry and may surround it.

The shape of a line is settled before its operands are read, and its operands from left to right.
That a letter has the wrong number of operands is found last, so a bad operand of such a line is
what gets reported.
-/

namespace SetAssoc.Trace

open Text (isBlank)

/-! ## The shape of a line -/

/-- A letter, an operand, and perhaps another one. -/
structure Shape where
  /-- The letter, known to be one of `r`, `R`, `w` and `W`. -/
  letter : Char
  /-- The first operand. -/
  address : List Char
  /-- The second operand. -/
  value : Option (List Char)
deriving DecidableEq, Repr

/-- The letter is that of a read. -/
def isReadLetter (c : Char) : Bool := c == 'r' || c == 'R'

/-- The letter is that of a write. -/
def isWriteLetter (c : Char) : Bool := c == 'w' || c == 'W'

/-- The first run of characters that are not blank, and what follows it and the blanks after it. -/
def word (cs : List Char) : List Char × List Char :=
  (cs.takeWhile (!isBlank ·), (cs.dropWhile (!isBlank ·)).dropWhile isBlank)

/-- The shape of a line that starts with a character other than a blank. -/
def shape? (cs : List Char) : Option Shape :=
  match word cs with
  | ([letter], rest) =>
    if isReadLetter letter || isWriteLetter letter then
      match word rest with
      | ([], _) => none
      | (address, []) => some ⟨letter, address, none⟩
      | (address, rest) =>
        match word rest with
        | (value, []) => some ⟨letter, address, some value⟩
        | _ => none
    else
      none
  | _ => none

/-! ## Reading a line -/

/-- The number of an operand, or the complaint about it. -/
def operand (line : Nat) (text : List Char) : Except TraceError UInt32 :=
  (Numeral.parse text).mapError fun cause => .notANumber line (String.ofList text) cause

end SetAssoc.Trace

namespace SetAssoc

open Text (isBlank)
open Trace (shape? operand isReadLetter)

/-- What a line says: an access, or nothing where it is blank or a comment. -/
def Access.ofLine (line : Nat) (text : String) : Except TraceError (Option Access) :=
  match text.toList.dropWhile isBlank with
  | [] => .ok none
  | '#' :: _ => .ok none
  | cs =>
    match shape? cs with
    | none => .error (.notAnEntry line text)
    | some s => do
      let address ← operand line s.address
      let value ← s.value.mapM (operand line)
      match isReadLetter s.letter, value with
      | true, none => .ok (some (.read address))
      | false, some v => .ok (some (.write address v))
      | _, _ => .error (.notAnEntry line text)

end SetAssoc

import SetAssoc.Trace.Entry
/-!
# Traces as bytes

A trace reaches us in windows, stretches of bytes of whatever length suits the reader.  Where one
window ends and the next begins has no meaning: a line, a pair of carriage return and line feed, or
a character may lie across the border.

A line ends at a line feed or with the last byte.  A carriage return right before the line feed
belongs to the end of the line.
-/

namespace SetAssoc.Trace

/-- Bytes as they come in, in stretches of any length. -/
abbrev Windows := List (List UInt8)

/-- The byte that ends a line. -/
def lineFeed : UInt8 := 0x0a

/-- The byte that may stand before the end of a line. -/
def carriageReturn : UInt8 := 0x0d

/-! ## Lines -/

/-- The bytes up to and including the first line feed, or all of them where there is none, and the
windows that remain. -/
def readThrough : Windows → List UInt8 × Windows
  | [] => ([], [])
  | w :: ws =>
    match w.dropWhile (· != lineFeed) with
    | lf :: back => (w.takeWhile (· != lineFeed) ++ [lf], back :: ws)
    | [] =>
      let (more, ws) := readThrough ws
      (w ++ more, ws)

/-- Reading takes bytes off the front. -/
theorem readThrough_append (ws : Windows) :
    (readThrough ws).1 ++ (readThrough ws).2.flatten = ws.flatten := by
  induction ws with
  | nil => rfl
  | cons w ws ih =>
    have hw := List.takeWhile_append_dropWhile (p := (· != lineFeed)) (l := w)
    unfold readThrough
    split
    · next lf back h =>
      rw [h] at hw
      simpa using congrArg (· ++ ws.flatten) hw
    · next h => simp [ih]

/-- The line without its end. -/
def dropEnd (line : List UInt8) : List UInt8 :=
  if line.getLast? = some lineFeed then
    let line := line.dropLast
    if line.getLast? = some carriageReturn then line.dropLast else line
  else
    line

/-- The lines of a trace, without their ends. -/
def lines (ws : Windows) : List (List UInt8) :=
  let r := readThrough ws
  if _ : r.1 = [] then [] else dropEnd r.1 :: lines r.2
termination_by ws.flatten.length
decreasing_by
  have hr := congrArg List.length (readThrough_append ws)
  have hpos : 0 < (readThrough ws).1.length := List.length_pos_iff.mpr ‹_›
  simp only [List.length_append] at hr
  show (readThrough ws).2.flatten.length < ws.flatten.length
  omega

/-! ## Entries -/

/-- The text of a line, if it is UTF-8. -/
def decodeLine (line : List UInt8) : Option String := String.fromUTF8? ⟨line.toArray⟩

/-- One line of a trace: an access or a problem. -/
abbrev Item := Except TraceError Access

/-- What the lines of a trace say, where `n` lines were counted before them.  Lines that are not
UTF-8 are reported and not counted. -/
def itemsFrom (n : Nat) : List (List UInt8) → List Item
  | [] => []
  | line :: rest =>
    match decodeLine line with
    | none => .error (.unreadable .notUtf8) :: itemsFrom n rest
    | some text =>
      match Access.ofLine (n + 1) text with
      | .ok none => itemsFrom (n + 1) rest
      | .ok (some op) => .ok op :: itemsFrom (n + 1) rest
      | .error e => .error e :: itemsFrom (n + 1) rest

/-- What a trace says, line by line. -/
def items (ws : Windows) : List Item := itemsFrom 0 (lines ws)

end SetAssoc.Trace

/-!
# White space

The characters with the property `White_Space`: they separate the parts of a trace line and may
stand around it.
-/

namespace SetAssoc.Text

/-- The character is white space: the control characters from tab to carriage return, the next-line
character, and the space characters and line separators of all scripts. -/
def isBlank (c : Char) : Bool :=
  let n := c.toNat
  (0x09 ≤ n && n ≤ 0x0d) || n == 0x20 || n == 0x85 || n == 0xa0 || n == 0x1680 ||
    (0x2000 ≤ n && n ≤ 0x200a) || n == 0x2028 || n == 0x2029 || n == 0x202f || n == 0x205f ||
    n == 0x3000

end SetAssoc.Text

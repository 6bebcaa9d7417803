/-!
# Writing JSON

A record of texts and whole numbers as a JSON object, either without any white space or with one
member on each line.
-/

namespace SetAssoc.Json

/-- A value of a single token. -/
inductive Scalar where
  /-- A text. -/
  | text (s : String)
  /-- A whole number. -/
  | count (n : UInt64)
deriving DecidableEq, Repr

/-- A digit to base 16. -/
def hexChar (n : Nat) : Char := Nat.digitChar n

/-- A character as it stands between quotes: quotes, backslashes and control characters are escaped
and nothing else. -/
def escape (c : Char) : List Char :=
  match c with
  | '"' => ['\\', '"']
  | '\\' => ['\\', '\\']
  | '\n' => ['\\', 'n']
  | '\r' => ['\\', 'r']
  | '\t' => ['\\', 't']
  | '\x08' => ['\\', 'b']
  | '\x0c' => ['\\', 'f']
  | c =>
    if c.toNat < 0x20 then
      ['\\', 'u', '0', '0', hexChar (c.toNat / 16), hexChar (c.toNat % 16)]
    else
      [c]

/-- A text between quotes. -/
def quoted (s : String) : List Char := '"' :: s.toList.flatMap escape ++ ['"']

/-- A value. -/
def Scalar.render : Scalar → List Char
  | .text s => quoted s
  | .count n => Nat.toDigits 10 n.toNat

/-- A member, with some white space after its colon. -/
def member (gap : List Char) (m : String × Scalar) : List Char :=
  quoted m.1 ++ ':' :: gap ++ m.2.render

/-- An object without white space. -/
def compact (members : List (String × Scalar)) : String :=
  String.ofList ('\x7b' :: ((members.map (member [])).intersperse [',']).flatten ++ ['\x7d'])

/-- An object with its members on lines of their own, two spaces in. -/
def pretty (members : List (String × Scalar)) : String :=
  let lines := members.map fun m => '\n' :: ' ' :: ' ' :: member [' '] m
  String.ofList ('\x7b' :: (lines.intersperse [',']).flatten ++ ['\n', '\x7d'])

end SetAssoc.Json

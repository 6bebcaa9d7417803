import SetAssoc.Text.Hex
import SetAssoc.Text.Hidden
/-!
# Text between quotes

A message quotes a piece of text so that its ends and everything in it can be seen: quotes and
backslashes get a backslash, the usual control characters their letter, and any other character
that does not show its number between braces.
-/

namespace SetAssoc.Text

/-- A character as it stands between quotes. -/
def escape (c : Char) : List Char :=
  match c with
  | '\x00' => ['\\', '0']
  | '\t' => ['\\', 't']
  | '\n' => ['\\', 'n']
  | '\r' => ['\\', 'r']
  | '"' => ['\\', '"']
  | '\\' => ['\\', '\\']
  | c =>
    if isHidden c then ['\\', 'u', '\x7b'] ++ hexDigits 1 c.toNat ++ ['\x7d'] else [c]

/-- A text between quotes, with everything in it made visible. -/
def quote (s : String) : String :=
  String.ofList ('"' :: s.toList.flatMap escape ++ ['"'])

end SetAssoc.Text

import SetAssoc.Text.Quoted
/-!
# What can be wrong with a trace

Either its text is wrong at some line, or it could not be read at all.
-/

namespace SetAssoc

/-- Why a text is not a 32-bit hexadecimal number. -/
inductive NumeralError where
  /-- There are no digits. -/
  | empty
  /-- A character is not a hexadecimal digit. -/
  | invalidDigit
  /-- The number needs more than 32 bits. -/
  | overflow
deriving DecidableEq, Repr

/-- Why a trace could not be read. -/
inductive ReadFault where
  /-- A line is not UTF-8. -/
  | notUtf8
  /-- There is no such file. -/
  | notFound
  /-- The path leads to a directory. -/
  | isDirectory
deriving DecidableEq, Repr

/-- The sentence for a failed read. -/
def ReadFault.message : ReadFault → String
  | .notUtf8 => "stream did not contain valid UTF-8"
  | .notFound => "No such file or directory (os error 2)"
  | .isDirectory => "Is a directory (os error 21)"

/-- A problem with a trace. -/
inductive TraceError where
  /-- The line is not an entry. -/
  | notAnEntry (line : Nat) (text : String)
  /-- An operand of the line is not a number. -/
  | notANumber (line : Nat) (text : String) (cause : NumeralError)
  /-- The trace could not be read. -/
  | unreadable (fault : ReadFault)
deriving DecidableEq, Repr

/-- The sentence for a problem with a trace. -/
def TraceError.message : TraceError → String
  | .notAnEntry line text => s!"line {line}: unrecognised trace entry {Text.quote text}"
  | .notANumber line text _ => s!"line {line}: {Text.quote text} is not a 32-bit hex number"
  | .unreadable fault => s!"couldn't read the trace: {fault.message}"

end SetAssoc

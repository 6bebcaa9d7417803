import SetAssoc.Decimal.Shortest
import SetAssoc.Json.Token
import SetAssoc.Text.Quoted
/-!
# What can be wrong with a JSON text

A text is either no JSON, or JSON that does not hold what was asked for.  It is judged while it is
read, so what comes first is reported, and the rest of the text does not matter any more.
-/

namespace SetAssoc.Json

/-- The kind of a value, with the value where it is a single token. -/
inductive Found where
  /-- The word `null`. -/
  | null
  /-- A truth value. -/
  | boolean (b : Bool)
  /-- A number. -/
  | number (n : Number)
  /-- A text. -/
  | text (s : String)
  /-- An array, of which only the bracket was read. -/
  | sequence
  /-- An object, of which only the brace was read. -/
  | map
deriving DecidableEq, Repr

/-- Numbers with a fraction are written out from a hundred-thousandth up to sixteen digits before
the point. -/
def floatLayout : Decimal.Layout where
  leastPlain := -5
  greatestPlain := 15

/-- The text of a number that is no integer. -/
def floatText (negative : Bool) (x : Binary64) : String :=
  (if negative then "-" else "") ++ Decimal.render floatLayout (Decimal.shortest x)

/-- What was found, put into words. -/
def Found.describe : Found → String
  | .null => "null"
  | .boolean b => s!"boolean `{b}`"
  | .number (.integer n) => s!"integer `{n}`"
  | .number (.float negative x) => s!"floating point `{floatText negative x}`"
  | .text s => s!"string {Text.quote s}"
  | .sequence => "sequence"
  | .map => "map"

/-- Why JSON does not hold what was asked for. -/
inductive Misfit where
  /-- A field without a default is not there. -/
  | missingField (name : String)
  /-- A field is there for the second time. -/
  | duplicateField (name : String)
  /-- A value is of another kind than the one asked for. -/
  | wrongType (found : Found) (expected : String)
  /-- A whole number is outside the range asked for. -/
  | outOfRange (n : Int) (expected : String)
  /-- A name is none of those that were asked for. -/
  | unknownVariant (name : String) (known : List String)
  /-- An array ends before its fields do, at the field with this number. -/
  | tooShort (length : Nat) (expected : String)
deriving DecidableEq, Repr

/-- The sentence for a misfit. -/
def Misfit.message : Misfit → String
  | .missingField name => s!"missing field `{name}`"
  | .duplicateField name => s!"duplicate field `{name}`"
  | .wrongType found expected => s!"invalid type: {found.describe}, expected {expected}"
  | .outOfRange n expected => s!"invalid value: integer `{n}`, expected {expected}"
  | .unknownVariant name known =>
    let names := ", ".intercalate (known.map fun k => s!"`{k}`")
    s!"unknown variant `{name}`, expected one of {names}"
  | .tooShort length expected => s!"invalid length {length}, expected {expected}"

/-- A problem with a JSON text. -/
inductive Error where
  /-- The text is no JSON. -/
  | malformed
  /-- The text does not hold what was asked for. -/
  | misfit (m : Misfit)
deriving DecidableEq, Repr

/-- The sentence for a problem with a JSON text. -/
def Error.message : Error → String
  | .malformed => "not well-formed JSON"
  | .misfit m => m.message

end SetAssoc.Json

import SetAssoc.Json.Token
import SetAssoc.Proofs.Numerals
/-!
# JSON as it may be written

A JSON value is a tree, its tokens stand in a row (`Value.tokens`), and a row of tokens is a text
(`Spells`): white space may stand before every token and behind the last one.  A token may be written
in more than one way, above all a text, in which every character may be escaped.

Nothing here knows how a text is read.
-/

namespace SetAssoc.Json

/-! ## Numbers -/

/-- Digits to base ten, at least one of them. -/
def DigitsWritten (ds : List Nat) (cs : List Char) : Prop :=
  ds ≠ [] ∧ (∀ d ∈ ds, d < 10) ∧ cs = ds.map Nat.digitChar

/-- The digits behind the point, if there is one. -/
inductive FractionWritten : List Nat → List Char → Prop
  /-- There is no point. -/
  | none : FractionWritten [] []
  /-- A point, and digits. -/
  | some {ds : List Nat} {cs : List Char} (h : DigitsWritten ds cs) : FractionWritten ds ('.' :: cs)

/-- The power of ten, if there is one. -/
inductive PowerWritten : Option (Bool × List Nat) → List Char → Prop
  /-- There is no power. -/
  | none : PowerWritten none []
  /-- A letter, perhaps a plus sign, and digits. -/
  | positive {e : Char} {sign : List Char} {ds : List Nat} {cs : List Char}
      (he : e = 'e' ∨ e = 'E') (hsign : sign = [] ∨ sign = ['+']) (h : DigitsWritten ds cs) :
      PowerWritten (some (false, ds)) (e :: (sign ++ cs))
  /-- A letter, a minus sign, and digits. -/
  | negative {e : Char} {ds : List Nat} {cs : List Char}
      (he : e = 'e' ∨ e = 'E') (h : DigitsWritten ds cs) :
      PowerWritten (some (true, ds)) (e :: '-' :: cs)

/-- A number.  No digit follows a leading zero. -/
inductive Numeral.Written : Numeral → List Char → Prop
  /-- A sign or none, and the parts of the number. -/
  | parts {negative : Bool} {whole fraction : List Nat} {power : Option (Bool × List Nat)}
      {ws fs ps : List Char} (hwhole : DigitsWritten whole ws)
      (hzero : whole.head? = some 0 → whole = [0]) (hfraction : FractionWritten fraction fs)
      (hpower : PowerWritten power ps) :
      Written ⟨negative, whole, fraction, power⟩
        ((if negative then ['-'] else []) ++ (ws ++ (fs ++ ps)))

/-- A whole number, without a sign. -/
def Numeral.ofNat (n : Nat) : Numeral where
  negative := false
  whole := (Nat.toDigits 10 n).map fun c => c.toNat - '0'.toNat
  fraction := []
  power := none

/-! ## Texts -/

/-- What a text between quotes is made of. -/
inductive Piece where
  /-- A character that stands for itself. -/
  | plain (c : Char)
  /-- A character for which a letter stands behind a backslash. -/
  | escaped (c : Char)
  /-- A UTF-16 unit, given by its number. -/
  | unit (u : Nat)
deriving DecidableEq, Repr

/-- The letters that may follow a backslash, and the characters for which they stand. -/
def letters : List (Char × Char) :=
  [('"', '"'), ('\\', '\\'), ('/', '/'), ('b', '\x08'), ('f', '\x0c'), ('n', '\n'), ('r', '\r'),
   ('t', '\t')]

/-- A piece of a text. -/
inductive Piece.Written : Piece → List Char → Prop
  /-- Control characters, quotes and backslashes do not stand for themselves. -/
  | plain {c : Char} (hcontrol : 0x20 ≤ c.toNat) (hquote : c ≠ '"') (hslash : c ≠ '\\') :
      Written (.plain c) [c]
  /-- A backslash and a letter. -/
  | escaped {l c : Char} (h : (l, c) ∈ letters) : Written (.escaped c) ['\\', l]
  /-- A backslash, `u` and four hexadecimal digits. -/
  | unit {cs : List Char} {ds : List Nat} (hlen : ds.length = 4)
      (h : List.Forall₂ Numeral.Writes cs ds) :
      Written (.unit (Numeral.value ds)) ('\\' :: 'u' :: cs)

/-- Pieces, one behind the other. -/
inductive PiecesWritten : List Piece → List Char → Prop
  /-- No more pieces. -/
  | nil : PiecesWritten [] []
  /-- A piece, and more pieces. -/
  | cons {p : Piece} {ps : List Piece} {cs rest : List Char} (hp : p.Written cs)
      (hrest : PiecesWritten ps rest) : PiecesWritten (p :: ps) (cs ++ rest)

/-- The unit is the first half of a surrogate pair. -/
def IsHigh (u : Nat) : Prop := 0xd800 ≤ u ∧ u < 0xdc00

/-- The unit is the second half of a surrogate pair. -/
def IsLow (u : Nat) : Prop := 0xdc00 ≤ u ∧ u < 0xe000

instance (u : Nat) : Decidable (IsHigh u) := inferInstanceAs (Decidable (_ ∧ _))

instance (u : Nat) : Decidable (IsLow u) := inferInstanceAs (Decidable (_ ∧ _))

/-- The characters for which pieces stand.  The halves of a surrogate pair stand for one character
together, and a half on its own for nothing. -/
def meaning? : List Piece → Option (List Char)
  | [] => some []
  | .plain c :: ps => (meaning? ps).map (c :: ·)
  | .escaped c :: ps => (meaning? ps).map (c :: ·)
  | .unit u :: ps =>
    if IsHigh u then
      match ps with
      | .unit v :: ps =>
        if IsLow v then
          (meaning? ps).map (.ofNat (0x10000 + (u - 0xd800) * 0x400 + (v - 0xdc00)) :: ·)
        else
          none
      | _ => none
    else if IsLow u then
      none
    else
      (meaning? ps).map (.ofNat u :: ·)

/-! ## Tokens -/

/-- A token. -/
inductive Token.Written : Token → List Char → Prop
  /-- An opening brace. -/
  | openObject : Written .openObject ['\x7b']
  /-- A closing brace. -/
  | closeObject : Written .closeObject ['\x7d']
  /-- An opening bracket. -/
  | openArray : Written .openArray ['[']
  /-- A closing bracket. -/
  | closeArray : Written .closeArray [']']
  /-- What stands between a name and its value. -/
  | colon : Written .colon [':']
  /-- What stands between two elements or members. -/
  | comma : Written .comma [',']
  /-- The word `null`. -/
  | null : Written .null ['n', 'u', 'l', 'l']
  /-- The word `true`. -/
  | yes : Written (.boolean true) ['t', 'r', 'u', 'e']
  /-- The word `false`. -/
  | no : Written (.boolean false) ['f', 'a', 'l', 's', 'e']
  /-- A number. -/
  | number {n : Numeral} {cs : List Char} (h : n.Written cs) : Written (.number n) cs
  /-- A text, which stands for what its pieces stand for. -/
  | text {ps : List Piece} {cs : List Char} (h : PiecesWritten ps cs) :
      Written (.text ((meaning? ps).map String.ofList)) ('"' :: (cs ++ ['"']))

/-- The token is a number. -/
def Token.isNumber : Token → Bool
  | .number _ => true
  | _ => false

/-- White space. -/
def Space (cs : List Char) : Prop := ∀ c ∈ cs, c = ' ' ∨ c = '\t' ∨ c = '\n' ∨ c = '\r'

/-- A text made of these tokens, in this order. -/
inductive Spells : List Token → List Char → Prop
  /-- Nothing but white space. -/
  | nil {bs : List Char} (hbs : Space bs) : Spells [] bs
  /-- White space, a token, and more tokens. -/
  | cons {t : Token} {ts : List Token} {bs cs rest : List Char} (hbs : Space bs) (ht : t.Written cs)
      (hrest : Spells ts rest) : Spells (t :: ts) (bs ++ (cs ++ rest))

/-! ## Values -/

/-- A JSON value.  A text, or the name of a member, may be well-formed and stand for nothing. -/
inductive Value where
  /-- Nothing. -/
  | null
  /-- A truth value. -/
  | boolean (b : Bool)
  /-- A number. -/
  | number (n : Numeral)
  /-- A text, and what it stands for, if anything. -/
  | text (s : Option String)
  /-- An array of values. -/
  | array (vs : List Value)
  /-- An object of members, each a name and a value. -/
  | object (ms : List (Option String × Value))

namespace Value

mutual

/-- The tokens of a value. -/
def tokens : Value → List Token
  | .null => [.null]
  | .boolean b => [.boolean b]
  | .number n => [.number n]
  | .text s => [.text s]
  | .array vs => .openArray :: elementTokens [] vs
  | .object ms => .openObject :: memberTokens [] ms

/-- The tokens of the elements that follow `lead` in an array, and of its end.  A comma leads to
every element but the first. -/
def elementTokens (lead : List Token) : List Value → List Token
  | [] => [.closeArray]
  | v :: vs => lead ++ (v.tokens ++ elementTokens [.comma] vs)

/-- The tokens of the members that follow `lead` in an object, and of its end. -/
def memberTokens (lead : List Token) : List (Option String × Value) → List Token
  | [] => [.closeObject]
  | (name, v) :: ms => lead ++ (.text name :: .colon :: (v.tokens ++ memberTokens [.comma] ms))

end

/-- Members that have proper names. -/
def named (ms : List (String × Value)) : List (Option String × Value) :=
  ms.map fun m => (some m.1, m.2)

/-- The object of members that have proper names. -/
def record (ms : List (String × Value)) : Value := .object (named ms)

/-- The text is JSON for the value. -/
def WrittenAs (v : Value) (text : String) : Prop := Spells v.tokens text.toList

end Value

/-- The values of the members with a name. -/
def valuesOf (name : String) (ms : List (String × Value)) : List Value :=
  (ms.filter fun m => m.1 = name).map Prod.snd

end SetAssoc.Json

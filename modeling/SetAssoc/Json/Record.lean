import SetAssoc.Json.Lexer
import SetAssoc.Json.Reader
/-!
# Reading records

A record has a fixed row of fields.  As JSON it is an object, in which the fields come in any order
and members with other names are passed over, or an array, in which they come in the order of the
row and those at the end may be left out.

While it is read a record is a `Draft`: for each field a value or none.  Whether a draft is a
record is decided at its end, where the first field that is missed decides what is reported.
-/

namespace SetAssoc.Json

universe u v w

/-- The fields of a record, some of which have a value. -/
abbrev Draft (φ : Type u) (V : φ → Type v) := (f : φ) → Option (V f)

/-- What a record looks like as JSON. -/
structure Format (φ : Type u) (V : φ → Type v) where
  /-- What the record is called. -/
  title : String
  /-- All fields, in their order. -/
  fields : List φ
  /-- The name of a field. -/
  label : φ → String
  /-- How the value of a field is read. -/
  read : (f : φ) → Reader (V f)

namespace Draft

variable {φ : Type u} {V : φ → Type v}

/-- Nothing is known yet. -/
def empty : Draft φ V := fun _ => none

/-- The draft with the value of one field. -/
def put [DecidableEq φ] (d : Draft φ V) (f : φ) (v : V f) : Draft φ V := fun f' =>
  if h : f = f' then some (h ▸ v) else d f'

/-- The value of a field that has to be there. -/
def need (d : Draft φ V) (f : φ) : Except φ (V f) :=
  match d f with
  | some v => .ok v
  | none => .error f

end Draft

namespace Format

variable {φ : Type u} {V : φ → Type v} [DecidableEq φ]

/-- The field with a name. -/
def field? (m : Format φ V) (name : String) : Option φ :=
  m.fields.find? fun f => m.label f = name

/-- A misfit as an outcome. -/
def misfit {α : Type w} (x : Misfit) : Except Error α := .error (.misfit x)

/-! ## Objects -/

/-- Reads the value of a field into a draft. -/
def readField (m : Format φ V) (d : Draft φ V) (f : φ) (ts : List Token) :
    Except Error (Draft φ V × List Token) :=
  match (m.read f).run ts with
  | .error e => .error e
  | .ok (v, rest) => .ok (d.put f v, rest)

theorem length_of_readField {m : Format φ V} {d d' : Draft φ V} {f : φ} {ts rest : List Token}
    (h : m.readField d f ts = .ok (d', rest)) : rest.length < ts.length := by
  unfold readField at h
  split at h
  · cases h
  · next h' => cases h; exact (m.read f).shorter h'

/-- Reads a member: a name, and the value that belongs to it.  That a field is there already is
found before its value is read. -/
def readMember (m : Format φ V) (d : Draft φ V) (ts : List Token) :
    Except Error (Draft φ V × List Token) :=
  match ts with
  | .text (some name) :: rest =>
    match m.field? name with
    | some f =>
      if (d f).isSome then
        misfit (.duplicateField name)
      else
        match rest with
        | .colon :: rest => m.readField d f rest
        | _ => .error .malformed
    | none =>
      match rest with
      | .colon :: rest =>
        match Reader.ignored.run rest with
        | .error e => .error e
        | .ok ((), rest) => .ok (d, rest)
      | _ => .error .malformed
  | _ => .error .malformed

theorem length_of_readMember {m : Format φ V} {d d' : Draft φ V} {ts rest : List Token}
    (h : m.readMember d ts = .ok (d', rest)) : rest.length < ts.length := by
  unfold readMember at h
  split at h
  · split at h
    · split at h
      · cases h
      · split at h
        · have := length_of_readField h
          simp only [List.length_cons]; omega
        · cases h
    · split at h
      · split at h
        · cases h
        · next h' =>
          cases h
          have := Reader.ignored.shorter h'
          simp only [List.length_cons]; omega
      · cases h
  · cases h

/-- Reads one member after the other, up to the end of the object. -/
def readMembers (m : Format φ V) (d : Draft φ V) (ts : List Token) :
    Except Error (Draft φ V × List Token) :=
  match _ : m.readMember d ts with
  | .error e => .error e
  | .ok (d, .closeObject :: rest) => .ok (d, rest)
  | .ok (d, .comma :: rest) => readMembers m d rest
  | .ok _ => .error .malformed
termination_by ts.length
decreasing_by
  have := length_of_readMember ‹_›
  simp only [List.length_cons] at this
  omega

/-- Reads what follows the brace of an object. -/
def readObject (m : Format φ V) (ts : List Token) : Except Error (Draft φ V × List Token) :=
  match ts with
  | .closeObject :: rest => .ok (.empty, rest)
  | ts => m.readMembers .empty ts

/-! ## Arrays -/

/-- Reads values for some fields, each behind a comma, up to the end of the array. -/
def readElements (m : Format φ V) (d : Draft φ V) : List φ → List Token →
    Except Error (Draft φ V × List Token)
  | _, .closeArray :: rest => .ok (d, rest)
  | f :: fs, .comma :: ts =>
    match m.readField d f ts with
    | .error e => .error e
    | .ok (d, rest) => m.readElements d fs rest
  | _, _ => .error .malformed

/-- Reads what follows the bracket of an array. -/
def readArray (m : Format φ V) : List Token → Except Error (Draft φ V × List Token)
  | .closeArray :: rest => .ok (.empty, rest)
  | ts =>
    match m.fields with
    | [] => .error .malformed
    | f :: fs =>
      match m.readField .empty f ts with
      | .error e => .error e
      | .ok (d, rest) => m.readElements d fs rest

/-! ## Whole texts -/

/-- What an array of the record should have been. -/
def arrayTitle (m : Format φ V) : String := s!"{m.title} with {m.fields.length} elements"

/-- Reads a record, which `build` makes from its draft or else names the field that it misses. -/
def read? {α : Type w} (m : Format φ V) (build : Draft φ V → Except φ α) (ts : List Token) :
    Except Error (α × List Token) :=
  match ts with
  | .openObject :: ts =>
    match m.readObject ts with
    | .error e => .error e
    | .ok (d, rest) =>
      match build d with
      | .ok a => .ok (a, rest)
      | .error f => misfit (.missingField (m.label f))
  | .openArray :: ts =>
    match m.readArray ts with
    | .error e => .error e
    | .ok (d, rest) =>
      match build d with
      | .ok a => .ok (a, rest)
      | .error f => misfit (.tooShort (m.fields.idxOf f) m.arrayTitle)
  | ts =>
    match Reader.head.run ts with
    | .error e => .error e
    | .ok (found, _) => misfit (.wrongType found m.title)

/-- The record that a JSON text holds.  Nothing may follow it. -/
def decode {α : Type w} (m : Format φ V) (build : Draft φ V → Except φ α) (text : List UInt8) :
    Except Error α :=
  match m.read? build (tokens text) with
  | .error e => .error e
  | .ok (a, []) => .ok a
  | .ok _ => .error .malformed

end Format

end SetAssoc.Json

/-!
# Patterns

A pattern is a shape that a text, or a stretch of it, may have.  It is made of classes of
characters, and parts of it may have names; whoever looks for it in a text gets the stretches that
the names stand for.

A text can have a shape in more than one way.  `Pattern.ways` lists the ways from one place in the
text, the preferred one first: a repetition takes as many characters as it can, and what is optional
is there rather than not.  The way that counts is the preferred one from the first place that has
any (`Pattern.parts?`).
-/

namespace SetAssoc.Text

universe u

/-! ## Places -/

/-- A place in a text, and the parts that were named on the way to it. -/
structure Place (κ : Type u) where
  /-- The characters before it. -/
  behind : List Char
  /-- The characters after it. -/
  ahead : List Char
  /-- The stretches that got a name, with the names. -/
  parts : List (κ × List Char) := []
deriving DecidableEq, Repr

/-- The place so many characters further on. -/
def Place.skip {κ : Type u} (s : Place κ) (n : Nat) : Place κ :=
  { s with behind := s.behind ++ s.ahead.take n, ahead := s.ahead.drop n }

/-! ## Shapes -/

/-- A shape of texts, with names for its parts. -/
inductive Pattern (κ : Type u) where
  /-- The beginning of the text. -/
  | start
  /-- The end of the text. -/
  | stop
  /-- A character of a class. -/
  | one (p : Char → Bool)
  /-- Any number of characters of a class. -/
  | many (p : Char → Bool)
  /-- Two shapes, one after the other. -/
  | seq (first second : Pattern κ)
  /-- A shape, or nothing. -/
  | optional (inner : Pattern κ)
  /-- A shape with a name. -/
  | named (name : κ) (inner : Pattern κ)

namespace Pattern

variable {κ : Type u}

/-- Characters of a class, at least one. -/
def some1 (p : Char → Bool) : Pattern κ := (one p).seq (many p)

/-- The places to which a pattern leads from a place, the preferred one first. -/
@[simp] def ways : Pattern κ → Place κ → List (Place κ)
  | start, s => if s.behind = [] then [s] else []
  | stop, s => if s.ahead = [] then [s] else []
  | one p, s => if s.ahead.head?.any p then [s.skip 1] else []
  | many p, s => (List.range ((s.ahead.takeWhile p).length + 1)).reverse.map s.skip
  | seq first second, s => (first.ways s).flatMap second.ways
  | optional inner, s => inner.ways s ++ [s]
  | named name inner, s => (inner.ways s).map fun t =>
      { t with parts := t.parts ++ [(name, t.behind.drop s.behind.length)] }

/-- The named parts of a text that has the shape somewhere. -/
def parts? (shape : Pattern κ) (text : List Char) : Option (List (κ × List Char)) :=
  (List.range (text.length + 1)).findSome? fun n =>
    (shape.ways (Place.skip ⟨[], text, []⟩ n)).head?.map Place.parts

end Pattern

end SetAssoc.Text

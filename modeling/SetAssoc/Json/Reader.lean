import SetAssoc.Json.Error
/-!
# Reading values

A `Reader` takes a value off the front of a row of tokens.  Every reader takes at least one token,
so reading on and on comes to an end; the proof travels with the reader.

`head` reads a value that is a single token, or finds out that an array or object begins.  The
other readers ask for a value of a certain kind and complain about what `head` found instead.
-/

namespace SetAssoc.Json

universe u v

/-- Takes a value off the front of a row of tokens. -/
structure Reader (α : Type u) where
  /-- The value, and the tokens behind it. -/
  run : List Token → Except Error (α × List Token)
  /-- A value takes at least one token. -/
  shorter : ∀ {ts rest : List Token} {a : α}, run ts = .ok (a, rest) → rest.length < ts.length

namespace Reader

variable {α : Type u} {β : Type v}

/-- Reads a value and looks closer at it. -/
def refine (r : Reader α) (f : α → Except Error β) : Reader β where
  run ts :=
    match r.run ts with
    | .error e => .error e
    | .ok (a, rest) =>
      match f a with
      | .error e => .error e
      | .ok b => .ok (b, rest)
  shorter := by
    intro ts rest b h
    split at h
    · cases h
    · next a rest' hr =>
      split at h
      · cases h
      · cases h; exact r.shorter hr

/-! ## Single tokens -/

/-- Reads a value of a single token, or the token that begins a longer one. -/
def head : Reader Found where
  run
    | .null :: rest => .ok (.null, rest)
    | .boolean b :: rest => .ok (.boolean b, rest)
    | .number n :: rest =>
      match n.value? with
      | some v => .ok (.number v, rest)
      | none => .error .malformed
    | .text (some s) :: rest => .ok (.text s, rest)
    | .openArray :: rest => .ok (.sequence, rest)
    | .openObject :: rest => .ok (.map, rest)
    | _ => .error .malformed
  shorter := by
    intro ts rest a h
    split at h
    all_goals try (cases h; exact Nat.lt_succ_self _)
    · split at h
      · cases h; exact Nat.lt_succ_self _
      · cases h
    · cases h

/-- The complaint about a value of the wrong kind. -/
def wrongType (found : Found) (expected : String) : Except Error β :=
  .error (.misfit (.wrongType found expected))

/-- A whole number from zero up to a bound. -/
def natBelow (bound : Nat) (expected : String) : Found → Except Error Nat
  | .number (.integer n) =>
    if 0 ≤ n ∧ n < bound then .ok n.toNat else .error (.misfit (.outOfRange n expected))
  | found => wrongType found expected

/-- Reads a whole number of 32 bits. -/
def word32 : Reader UInt32 :=
  head.refine fun found => (natBelow UInt32.size "u32" found).map .ofNat

/-- Reads a whole number of 64 bits. -/
def word64 : Reader UInt64 :=
  head.refine fun found => (natBelow UInt64.size "u64" found).map .ofNat

/-- Reads a whole number of 64 bits that says how many there are of something. -/
def size64 : Reader UInt64 :=
  head.refine fun found => (natBelow UInt64.size "usize" found).map .ofNat

/-- Reads a whole number of 64 bits, or `null` for none. -/
def word64? : Reader (Option UInt64) :=
  head.refine fun
    | .null => .ok none
    | found => (natBelow UInt64.size "u64" found).map fun n => some (.ofNat n)

/-- Reads a text. -/
def text : Reader String :=
  head.refine fun
    | .text s => .ok s
    | found => wrongType found "a string"

/-- Reads `null`. -/
def unit : Reader Unit :=
  head.refine fun
    | .null => .ok ()
    | found => wrongType found "unit"

/-! ## Names -/

/-- The value that goes by a name. -/
def ofName (names : List (String × α)) (name : String) : Except Error α :=
  match names.lookup name with
  | some a => .ok a
  | none => .error (.misfit (.unknownVariant name (names.map Prod.fst)))

/-- Reads one of some names: either the bare name, or an object whose only member has that name and
the value `null`.  The members of an object are named by texts.  Where anything else stands for a
name the text is no JSON, so it counts as malformed and not as a misfit, whatever stands there. -/
def variant (names : List (String × α)) : Reader α where
  run
    | .text (some name) :: rest =>
      match ofName names name with
      | .ok a => .ok (a, rest)
      | .error e => .error e
    | .openObject :: .text (some name) :: rest =>
      match ofName names name with
      | .error e => .error e
      | .ok a =>
        match rest with
        | .colon :: rest =>
          match unit.run rest with
          | .error e => .error e
          | .ok ((), .closeObject :: rest) => .ok (a, rest)
          | .ok _ => .error .malformed
        | _ => .error .malformed
    | _ => .error .malformed
  shorter := by
    intro ts rest a h
    split at h
    · split at h
      · cases h; exact Nat.lt_succ_self _
      · cases h
    · split at h
      · cases h
      · split at h
        · split at h
          · cases h
          · next hu =>
            have hu := unit.shorter hu
            cases h
            simp only [List.length_cons] at *
            omega
          · cases h
        · cases h
    · cases h

/-! ## Values of no interest -/

/-- An array or object that has not been closed yet. -/
inductive Opened where
  /-- An array. -/
  | array
  /-- An object. -/
  | object
deriving DecidableEq, Repr

/-- What may come next. -/
inductive Expecting where
  /-- A value. -/
  | value
  /-- A value, or the end of an array without elements. -/
  | element
  /-- The name of a member. -/
  | name
  /-- The name of a member, or the end of an object without members. -/
  | member
  /-- What stands between a name and its value. -/
  | colon
  /-- What follows a whole value. -/
  | next
deriving DecidableEq, Repr

/-- Passes over the rest of a value, of which some arrays and objects are open, the innermost
first. -/
def passOver : Expecting → List Opened → List Token → Except Error (List Token)
  | .next, [], ts => .ok ts
  | _, _, [] => .error .malformed
  | .next, .array :: up, t :: ts =>
    match t with
    | .comma => passOver .value (.array :: up) ts
    | .closeArray => passOver .next up ts
    | _ => .error .malformed
  | .next, .object :: up, t :: ts =>
    match t with
    | .comma => passOver .name (.object :: up) ts
    | .closeObject => passOver .next up ts
    | _ => .error .malformed
  | .colon, up, t :: ts =>
    match t with
    | .colon => passOver .value up ts
    | _ => .error .malformed
  | .name, up, t :: ts =>
    match t with
    | .text _ => passOver .colon up ts
    | _ => .error .malformed
  | .member, up, t :: ts =>
    match t, up with
    | .text _, up => passOver .colon up ts
    | .closeObject, .object :: up => passOver .next up ts
    | _, _ => .error .malformed
  | .element, up, t :: ts =>
    match t, up with
    | .null, up | .boolean _, up | .number _, up | .text _, up => passOver .next up ts
    | .openArray, up => passOver .element (.array :: up) ts
    | .openObject, up => passOver .member (.object :: up) ts
    | .closeArray, .array :: up => passOver .next up ts
    | _, _ => .error .malformed
  | .value, up, t :: ts =>
    match t with
    | .null | .boolean _ | .number _ | .text _ => passOver .next up ts
    | .openArray => passOver .element (.array :: up) ts
    | .openObject => passOver .member (.object :: up) ts
    | _ => .error .malformed

theorem length_of_passOver {x : Expecting} {up : List Opened} {ts rest : List Token}
    (h : passOver x up ts = .ok rest) : rest.length ≤ ts.length := by
  fun_induction passOver x up ts
  all_goals first
    | (cases h; exact Nat.le_refl _)
    | (next ih => exact Nat.le_succ_of_le (ih h))
    | cases h

/-- A value takes at least one token. -/
theorem length_of_passOver_value {up : List Opened} {ts rest : List Token}
    (h : passOver .value up ts = .ok rest) : rest.length < ts.length := by
  cases ts with
  | nil => simp [passOver] at h
  | cons t ts =>
    simp only [passOver] at h
    split at h
    all_goals first
      | exact Nat.lt_succ_of_le (length_of_passOver h)
      | cases h

/-- Reads a value of any kind and forgets it.  How deep it is nested does not matter. -/
def ignored : Reader Unit where
  run ts :=
    match passOver .value [] ts with
    | .error e => .error e
    | .ok rest => .ok ((), rest)
  shorter := by
    intro ts rest a h
    split at h
    · cases h
    · next h' => cases h; exact length_of_passOver_value h'

end Reader

end SetAssoc.Json

import SetAssoc.Json.Token
/-!
# Reading tokens

`tokens` takes a JSON text apart.  Each step skips white space and reads one token, which takes at
least one byte; that is why it ends.
-/

namespace SetAssoc.Json

/-! ## Texts between quotes -/

/-- What a text between quotes is made of. -/
inductive Atom where
  /-- A byte. -/
  | byte (b : UInt8)
  /-- A UTF-16 unit, given by its number. -/
  | unit (u : Nat)
deriving DecidableEq, Repr

/-- The value of a hexadecimal digit. -/
def hexDigit? (b : UInt8) : Option Nat :=
  if 0x30 ≤ b ∧ b ≤ 0x39 then some (b.toNat - 0x30)
  else if 0x61 ≤ b ∧ b ≤ 0x66 then some (b.toNat - 0x61 + 10)
  else if 0x41 ≤ b ∧ b ≤ 0x46 then some (b.toNat - 0x41 + 10)
  else none

/-- The unit that four hexadecimal digits stand for. -/
def unit? (a b c d : UInt8) : Option Nat := do
  return (((← hexDigit? a) * 16 + (← hexDigit? b)) * 16 + (← hexDigit? c)) * 16 + (← hexDigit? d)

/-- The byte that a backslash and a letter stand for. -/
def escape? (b : UInt8) : Option UInt8 :=
  if b = 0x22 then some 0x22        -- quote
  else if b = 0x5c then some 0x5c   -- backslash
  else if b = 0x2f then some 0x2f   -- slash
  else if b = 0x62 then some 0x08   -- b, backspace
  else if b = 0x66 then some 0x0c   -- f, form feed
  else if b = 0x6e then some 0x0a   -- n, line feed
  else if b = 0x72 then some 0x0d   -- r, carriage return
  else if b = 0x74 then some 0x09   -- t, tab
  else none

/-- The atoms up to the closing quote, and what follows it. -/
def atoms? : List UInt8 → Option (List Atom × List UInt8)
  | [] => none
  | 0x22 :: rest => some ([], rest)                     -- quote
  | 0x5c :: 0x75 :: a :: b :: c :: d :: rest => do      -- backslash and u
    let u ← unit? a b c d
    let (as, rest) ← atoms? rest
    return (.unit u :: as, rest)
  | 0x5c :: e :: rest => do                             -- backslash
    let b ← escape? e
    let (as, rest) ← atoms? rest
    return (.byte b :: as, rest)
  | b :: rest =>
    if b < 0x20 ∨ b = 0x5c then
      none
    else do
      let (as, rest) ← atoms? rest
      return (.byte b :: as, rest)

/-- The bytes of the character with a code point. -/
def utf8 (n : Nat) : List UInt8 := String.utf8EncodeChar (Char.ofNat n)

/-- The bytes that atoms stand for.  A high surrogate must be followed by a low one, and a low one
stands nowhere else. -/
def bytes? : List Atom → Option (List UInt8)
  | [] => some []
  | .byte b :: as => (bytes? as).map (b :: ·)
  | .unit u :: as =>
    if 0xd800 ≤ u ∧ u < 0xdc00 then
      match as with
      | .unit v :: as =>
        if 0xdc00 ≤ v ∧ v < 0xe000 then
          (bytes? as).map (utf8 (0x10000 + (u - 0xd800) * 0x400 + (v - 0xdc00)) ++ ·)
        else
          none
      | _ => none
    else if 0xdc00 ≤ u ∧ u < 0xe000 then
      none
    else
      (bytes? as).map (utf8 u ++ ·)

/-- The text that atoms stand for. -/
def text? (as : List Atom) : Option String :=
  (bytes? as).bind fun bs => String.fromUTF8? ⟨bs.toArray⟩

/-! ## Numbers -/

/-- The value of a decimal digit. -/
def digit? (b : UInt8) : Option Nat :=
  if 0x30 ≤ b ∧ b ≤ 0x39 then some (b.toNat - 0x30) else none

/-- The digits in front, and what follows them. -/
def digits : List UInt8 → List Nat × List UInt8
  | [] => ([], [])
  | b :: rest =>
    match digit? b with
    | some d =>
      let (ds, rest) := digits rest
      (d :: ds, rest)
    | none => ([], b :: rest)

/-- The fraction in front, if any, and what follows it.  After a point there has to be a digit. -/
def fraction? : List UInt8 → Option (List Nat × List UInt8)
  | 0x2e :: rest =>   -- point
    match digits rest with
    | ([], _) => none
    | (d :: ds, rest) => some (d :: ds, rest)
  | rest => some ([], rest)

/-- The sign in front of a power, and what follows it. -/
def powerSign : List UInt8 → Bool × List UInt8
  | 0x2d :: rest => (true, rest)    -- minus
  | 0x2b :: rest => (false, rest)   -- plus
  | rest => (false, rest)

/-- The power in front, if any, and what follows it.  After the letter there has to be a digit. -/
def power? : List UInt8 → Option (Option (Bool × List Nat) × List UInt8)
  | [] => some (none, [])
  | b :: rest =>
    if b = 0x65 ∨ b = 0x45 then   -- e, E
      let (negative, rest) := powerSign rest
      match digits rest with
      | ([], _) => none
      | (d :: ds, rest) => some (some (negative, d :: ds), rest)
    else
      some (none, b :: rest)

/-- The number in front, without its sign, and what follows it.  No digit follows a leading
zero. -/
def numeral? (negative : Bool) (s : List UInt8) : Option (Numeral × List UInt8) :=
  match digits s with
  | ([], _) => none
  | (0 :: _ :: _, _) => none
  | (d :: ds, rest) => do
    let (fraction, rest) ← fraction? rest
    let (power, rest) ← power? rest
    return ({ negative, whole := d :: ds, fraction, power }, rest)

/-! ## Tokens -/

/-- What follows a word. -/
def afterWord? (word s : List UInt8) : Option (List UInt8) :=
  if word.isPrefixOf s then some (s.drop word.length) else none

/-- The token that a single byte makes. -/
def mark? (b : UInt8) : Option Token :=
  if b = 0x7b then some .openObject         -- opening brace
  else if b = 0x7d then some .closeObject   -- closing brace
  else if b = 0x5b then some .openArray     -- opening bracket
  else if b = 0x5d then some .closeArray    -- closing bracket
  else if b = 0x3a then some .colon
  else if b = 0x2c then some .comma
  else none

/-- The token that begins with a byte, given what follows the byte. -/
def token? (b : UInt8) (rest : List UInt8) : Option (Token × List UInt8) :=
  match mark? b with
  | some t => some (t, rest)
  | none =>
    if b = 0x22 then        -- quote
      (atoms? rest).map fun (as, rest) => (.text (text? as), rest)
    else if b = 0x6e then   -- n
      (afterWord? [0x75, 0x6c, 0x6c] rest).map (Token.null, ·)
    else if b = 0x74 then   -- t
      (afterWord? [0x72, 0x75, 0x65] rest).map (Token.boolean true, ·)
    else if b = 0x66 then   -- f
      (afterWord? [0x61, 0x6c, 0x73, 0x65] rest).map (Token.boolean false, ·)
    else if b = 0x2d then   -- minus
      (numeral? true rest).map fun (n, rest) => (.number n, rest)
    else
      (numeral? false (b :: rest)).map fun (n, rest) => (.number n, rest)

/-- The byte is white space. -/
def isSpace (b : UInt8) : Bool := b == 0x20 || b == 0x09 || b == 0x0a || b == 0x0d

/-! ## A token takes at least one byte -/

theorem length_of_atoms? {s rest : List UInt8} {as : List Atom} (h : atoms? s = some (as, rest)) :
    rest.length ≤ s.length := by
  fun_induction atoms? s generalizing as rest with
  | case1 => cases h
  | case2 s => cases h; simp
  | case3 a b c d s ih =>
    simp only [Option.pure_def, Option.bind_eq_bind, Option.bind_eq_some_iff, Prod.exists] at h
    obtain ⟨u, -, bs, r, hr, h⟩ := h
    cases h
    have := ih hr
    simp only [List.length_cons]; omega
  | case4 e s _ ih =>
    simp only [Option.pure_def, Option.bind_eq_bind, Option.bind_eq_some_iff, Prod.exists] at h
    obtain ⟨u, -, bs, r, hr, h⟩ := h
    cases h
    have := ih hr
    simp only [List.length_cons]; omega
  | case5 => cases h
  | case6 b s _ _ _ _ ih =>
    simp only [Option.pure_def, Option.bind_eq_bind, Option.bind_eq_some_iff, Prod.exists] at h
    obtain ⟨bs, r, hr, h⟩ := h
    cases h
    have := ih hr
    simp only [List.length_cons]; omega

theorem length_digits (s : List UInt8) : (digits s).1.length + (digits s).2.length = s.length := by
  fun_induction digits s with
  | case1 => rfl
  | case2 b rest d _ ds r hr ih => simp only [hr, List.length_cons] at *; omega
  | case3 => simp

theorem length_of_fraction? {s rest : List UInt8} {ds : List Nat}
    (h : fraction? s = some (ds, rest)) : rest.length ≤ s.length := by
  unfold fraction? at h
  split at h
  · next r =>
    have hd := length_digits r
    split at h
    · cases h
    · next he =>
      cases h
      rw [he] at hd
      simp only [List.length_cons] at *
      omega
  · cases h; exact Nat.le_refl _

theorem length_powerSign (s : List UInt8) : (powerSign s).2.length ≤ s.length := by
  unfold powerSign
  split <;> simp

theorem length_of_power? {s rest : List UInt8} {p : Option (Bool × List Nat)}
    (h : power? s = some (p, rest)) : rest.length ≤ s.length := by
  unfold power? at h
  split at h
  · cases h; exact Nat.le_refl _
  · next b r =>
    have hs := length_powerSign r
    have hd := length_digits (powerSign r).2
    split at h
    · dsimp only at h
      split at h
      · cases h
      · next he =>
        cases h
        rw [he] at hd
        simp only [List.length_cons] at *
        omega
    · cases h; exact Nat.le_refl _

theorem length_of_numeral? {negative : Bool} {s rest : List UInt8} {n : Numeral}
    (h : numeral? negative s = some (n, rest)) : rest.length < s.length := by
  unfold numeral? at h
  have hd := length_digits s
  split at h
  · cases h
  · cases h
  · next he =>
    simp only [Option.pure_def, Option.bind_eq_bind, Option.bind_eq_some_iff, Prod.exists] at h
    obtain ⟨_, r₁, h₁, _, r₂, h₂, h⟩ := h
    cases h
    have := length_of_fraction? h₁
    have := length_of_power? h₂
    rw [he] at hd
    simp only [List.length_cons] at hd
    omega

theorem length_of_afterWord? {word s rest : List UInt8} (h : afterWord? word s = some rest) :
    rest.length ≤ s.length := by
  unfold afterWord? at h
  split at h
  · cases h; simp
  · cases h

theorem length_of_token? {b : UInt8} {s rest : List UInt8} {t : Token}
    (h : token? b s = some (t, rest)) : rest.length ≤ s.length := by
  unfold token? at h
  split at h
  · cases h; exact Nat.le_refl _
  repeat' split at h
  all_goals
    simp only [Option.map_eq_some_iff, Prod.mk.injEq, Prod.exists] at h
  · obtain ⟨as, r, hr, -, rfl⟩ := h
    exact length_of_atoms? hr
  · obtain ⟨r, hr, -, rfl⟩ := h
    exact length_of_afterWord? hr
  · obtain ⟨r, hr, -, rfl⟩ := h
    exact length_of_afterWord? hr
  · obtain ⟨r, hr, -, rfl⟩ := h
    exact length_of_afterWord? hr
  · obtain ⟨n, r, hr, -, rfl⟩ := h
    exact Nat.le_of_lt (length_of_numeral? hr)
  · obtain ⟨n, r, hr, -, rfl⟩ := h
    exact Nat.le_of_lt_succ (length_of_numeral? hr)

/-! ## The row of tokens -/

/-- The first token of a text that is not all white space, and what follows it.  Where no token can
be read nothing follows. -/
def step? (s : List UInt8) : Option (Token × List UInt8) :=
  match s.dropWhile isSpace with
  | [] => none
  | b :: rest => some ((token? b rest).getD (.broken, []))

theorem length_of_step? {s rest : List UInt8} {t : Token} (h : step? s = some (t, rest)) :
    rest.length < s.length := by
  unfold step? at h
  split at h
  · cases h
  · next b r hr =>
    have hs := (List.dropWhile_sublist isSpace (l := s)).length_le
    rw [hr, List.length_cons] at hs
    cases ht : token? b r with
    | none => rw [ht] at h; cases h; simp only [List.length_nil]; omega
    | some p =>
      rw [ht] at h; cases h
      have := length_of_token? ht
      omega

/-- The tokens of a text. -/
def tokens (s : List UInt8) : List Token :=
  match _ : step? s with
  | none => []
  | some (t, rest) => t :: tokens rest
termination_by s.length
decreasing_by exact length_of_step? ‹_›

end SetAssoc.Json

import SetAssoc.Json.Lexer
import SetAssoc.Proofs.Grammar
import SetAssoc.Proofs.Renderings
import Mathlib
/-!
# A text is taken apart into its tokens

A text that spells a row of tokens is taken apart into that row (`tokens_of_spells`), however it is
written.  Most tokens are known by their first byte and end by themselves.  A text between quotes
ends at the first quote that stands for itself, so its pieces are read one by one (`atoms?_piece`),
and what they stand for is decoded in one go (`text?_atoms`).  A number ends where something comes
that cannot belong to it, so that two numbers in a row would be read as one; in the tokens of a value
that does not happen (`apart_tokens`).
-/

namespace SetAssoc.Json

open Trace (encode encode_append decodeLine decodeLine_encode toNat_eq_of_mem_utf8EncodeChar)

/-! ## Characters as bytes -/

theorem encode_cons (c : Char) (cs : List Char) :
    encode (c :: cs) = String.utf8EncodeChar c ++ encode cs := rfl

/-- A character below 128 is a byte of its own. -/
theorem utf8EncodeChar_ascii {c : Char} (h : c.toNat < 128) :
    String.utf8EncodeChar c = [UInt8.ofNat c.toNat] := by
  unfold String.utf8EncodeChar
  exact if_pos (Nat.le_of_lt_succ h)

theorem encode_ascii {c : Char} (h : c.toNat < 128) (cs : List Char) :
    encode (c :: cs) = UInt8.ofNat c.toNat :: encode cs := by
  rw [encode_cons, utf8EncodeChar_ascii h, List.singleton_append]

theorem exists_utf8EncodeChar (c : Char) : ∃ b bs, String.utf8EncodeChar c = b :: bs :=
  List.exists_cons_of_ne_nil (by simp)

/-! ## Pieces of texts -/

/-- What is read of a piece. -/
def Piece.atoms : Piece → List Atom
  | .plain c | .escaped c => (String.utf8EncodeChar c).map .byte
  | .unit u => [.unit u]

theorem atoms?_byte {b : UInt8} (hcontrol : 0x20 ≤ b) (hquote : b ≠ 0x22) (hslash : b ≠ 0x5c)
    (rest : List UInt8) :
    atoms? (b :: rest) = (atoms? rest).map fun q => (.byte b :: q.1, q.2) := by
  have hplain : ¬ (b < 0x20 ∨ b = 0x5c) := by
    rintro (h | h)
    · exact absurd hcontrol (UInt8.not_le.mpr h)
    · exact hslash h
  rw [atoms?.eq_5 b rest hquote (fun _ _ _ _ _ h => absurd h hslash) (fun _ _ h => absurd h hslash),
    if_neg hplain]
  cases atoms? rest <;> rfl

theorem atoms?_bytes {bs : List UInt8} (h : ∀ b ∈ bs, 0x20 ≤ b ∧ b ≠ 0x22 ∧ b ≠ 0x5c)
    (rest : List UInt8) :
    atoms? (bs ++ rest) = (atoms? rest).map fun q => (bs.map .byte ++ q.1, q.2) := by
  induction bs with
  | nil => simp
  | cons b bs ih =>
    obtain ⟨hcontrol, hquote, hslash⟩ := h b (List.mem_cons_self ..)
    rw [List.cons_append, atoms?_byte hcontrol hquote hslash,
      ih fun b' hb' => h b' (List.mem_cons_of_mem b hb'), Option.map_map]
    rfl

theorem atoms?_escape {e b : UInt8} (hu : e ≠ 0x75) (h : escape? e = some b) (rest : List UInt8) :
    atoms? (0x5c :: e :: rest) = (atoms? rest).map fun q => (.byte b :: q.1, q.2) := by
  rw [atoms?.eq_4 e rest fun _ _ _ _ _ h => absurd h hu, h]
  cases atoms? rest <;> rfl

theorem atoms?_unit {a b c d : UInt8} {u : Nat} (h : unit? a b c d = some u) (rest : List UInt8) :
    atoms? (0x5c :: 0x75 :: a :: b :: c :: d :: rest) =
      (atoms? rest).map fun q => (.unit u :: q.1, q.2) := by
  rw [atoms?.eq_3, h]
  cases atoms? rest <;> rfl

/-- The bytes of a character that stands for itself are none of those that do not. -/
theorem plain_utf8EncodeChar {c : Char} (hcontrol : 0x20 ≤ c.toNat) (hquote : c ≠ '"')
    (hslash : c ≠ '\\') : ∀ b ∈ String.utf8EncodeChar c, 0x20 ≤ b ∧ b ≠ 0x22 ∧ b ≠ 0x5c := by
  intro b hb
  have hcode (n : Nat) (hn : n < 128) (hbn : b.toNat = n) : c.toNat = n :=
    (toNat_eq_of_mem_utf8EncodeChar (by omega) hb).trans hbn
  refine ⟨?_, ?_, ?_⟩
  · rw [UInt8.le_iff_toNat_le]
    by_contra hlt
    have hlow : b.toNat < 32 := Nat.lt_of_not_le hlt
    have := hcode b.toNat (by omega) rfl
    omega
  · rintro rfl
    exact hquote (Char.toNat_inj.mp (hcode 0x22 (by decide) rfl))
  · rintro rfl
    exact hslash (Char.toNat_inj.mp (hcode 0x5c (by decide) rfl))

theorem escape?_letter {l c : Char} (h : (l, c) ∈ letters) :
    encode ['\\', l] = [0x5c, UInt8.ofNat l.toNat] ∧ UInt8.ofNat l.toNat ≠ 0x75 ∧
      escape? (UInt8.ofNat l.toNat) = some (UInt8.ofNat c.toNat) ∧
      String.utf8EncodeChar c = [UInt8.ofNat c.toNat] := by
  have hall : ∀ e ∈ letters, encode ['\\', e.1] = [0x5c, UInt8.ofNat e.1.toNat] ∧
      UInt8.ofNat e.1.toNat ≠ 0x75 ∧
      escape? (UInt8.ofNat e.1.toNat) = some (UInt8.ofNat e.2.toNat) ∧
      String.utf8EncodeChar e.2 = [UInt8.ofNat e.2.toNat] := by decide
  exact hall (l, c) h

theorem hexDigit?_of_writes {c : Char} {d : Nat} (h : Numeral.Writes c d) :
    String.utf8EncodeChar c = [UInt8.ofNat c.toNat] ∧ hexDigit? (UInt8.ofNat c.toNat) = some d := by
  obtain ⟨hd, rfl | rfl⟩ := h
  · exact (by decide : ∀ d < 16,
      String.utf8EncodeChar d.digitChar = [UInt8.ofNat d.digitChar.toNat] ∧
        hexDigit? (UInt8.ofNat d.digitChar.toNat) = some d) d hd
  · exact (by decide : ∀ d < 16,
      String.utf8EncodeChar d.digitChar.toUpper = [UInt8.ofNat d.digitChar.toUpper.toNat] ∧
        hexDigit? (UInt8.ofNat d.digitChar.toUpper.toNat) = some d) d hd

theorem unit?_of_writes {cs : List Char} {ds : List Nat} (hlen : ds.length = 4)
    (h : List.Forall₂ Numeral.Writes cs ds) :
    ∃ a b c d, encode cs = [a, b, c, d] ∧ unit? a b c d = some (Numeral.value ds) := by
  match ds, hlen, cs, h with
  | [d₁, d₂, d₃, d₄], _, [c₁, c₂, c₃, c₄], .cons h₁ (.cons h₂ (.cons h₃ (.cons h₄ .nil))) =>
    obtain ⟨he₁, hd₁⟩ := hexDigit?_of_writes h₁
    obtain ⟨he₂, hd₂⟩ := hexDigit?_of_writes h₂
    obtain ⟨he₃, hd₃⟩ := hexDigit?_of_writes h₃
    obtain ⟨he₄, hd₄⟩ := hexDigit?_of_writes h₄
    refine ⟨.ofNat c₁.toNat, .ofNat c₂.toNat, .ofNat c₃.toNat, .ofNat c₄.toNat, ?_, ?_⟩
    · rw [encode_cons, encode_cons, encode_cons, encode_cons, he₁, he₂, he₃, he₄]
      rfl
    · have hvalue : Numeral.value [d₁, d₂, d₃, d₄] = ((d₁ * 16 + d₂) * 16 + d₃) * 16 + d₄ := by
        simp only [Numeral.value_cons, Numeral.value_nil, List.length_cons, List.length_nil]
        ring
      simp [unit?, hd₁, hd₂, hd₃, hd₄, hvalue]

/-- **A piece** is read as its atoms. -/
theorem atoms?_piece {p : Piece} {cs : List Char} (h : p.Written cs) (rest : List UInt8) :
    atoms? (encode cs ++ rest) = (atoms? rest).map fun q => (p.atoms ++ q.1, q.2) := by
  cases h with
  | @plain c hcontrol hquote hslash =>
    rw [encode_cons, show encode [] = [] from rfl, List.append_nil]
    exact atoms?_bytes (plain_utf8EncodeChar hcontrol hquote hslash) rest
  | @escaped l c h =>
    obtain ⟨hbytes, hu, hescape, hchar⟩ := escape?_letter h
    rw [hbytes, Piece.atoms, hchar]
    exact atoms?_escape hu hescape rest
  | @unit cs ds hlen h =>
    obtain ⟨a, b, c, d, hbytes, hunit⟩ := unit?_of_writes hlen h
    rw [encode_cons, encode_cons, hbytes]
    exact atoms?_unit hunit rest

/-- **Pieces** are read up to the closing quote. -/
theorem atoms?_pieces {ps : List Piece} {cs : List Char} (h : PiecesWritten ps cs)
    (rest : List UInt8) :
    atoms? (encode cs ++ 0x22 :: rest) = some (ps.flatMap Piece.atoms, rest) := by
  induction h with
  | nil => exact atoms?.eq_2 rest
  | cons hp _ ih =>
    rw [encode_append, List.append_assoc, atoms?_piece hp, ih]
    rfl

theorem bytes?_bytes (bs : List UInt8) (as : List Atom) :
    bytes? (bs.map .byte ++ as) = (bytes? as).map (bs ++ ·) := by
  induction bs with
  | nil => simp
  | cons b bs ih =>
    rw [List.map_cons, List.cons_append, bytes?, ih, Option.map_map]
    rfl

/-- **What pieces stand for** is what their atoms stand for. -/
theorem bytes?_atoms (ps : List Piece) :
    bytes? (ps.flatMap Piece.atoms) = (meaning? ps).map encode := by
  fun_induction meaning? ps with
  | case1 => rfl
  | case2 c ps ih =>
    rw [List.flatMap_cons, Piece.atoms, bytes?_bytes, ih]
    cases meaning? ps <;> rfl
  | case3 c ps ih =>
    rw [List.flatMap_cons, Piece.atoms, bytes?_bytes, ih]
    cases meaning? ps <;> rfl
  | case4 u hu v ps hv ih =>
    -- both halves of a pair
    have hhigh : 0xd800 ≤ u ∧ u < 0xdc00 := hu
    have hlow : 0xdc00 ≤ v ∧ v < 0xe000 := hv
    show bytes? (.unit u :: .unit v :: ps.flatMap Piece.atoms) = _
    simp only [bytes?, if_pos hhigh, if_pos hlow, ih]
    cases meaning? ps <;> rfl
  | case5 u hu v ps hv =>
    have hhigh : 0xd800 ≤ u ∧ u < 0xdc00 := hu
    have hlow : ¬ (0xdc00 ≤ v ∧ v < 0xe000) := hv
    show bytes? (.unit u :: .unit v :: ps.flatMap Piece.atoms) = _
    simp only [bytes?, if_pos hhigh, if_neg hlow]
    rfl
  | case6 u ps hu hnext =>
    -- a first half that no unit follows
    have hhigh : 0xd800 ≤ u ∧ u < 0xdc00 := hu
    show bytes? (.unit u :: ps.flatMap Piece.atoms) = _
    cases ps with
    | nil => simp [bytes?, hhigh]
    | cons p ps =>
      cases p with
      | unit v => exact (hnext v ps rfl).elim
      | plain c =>
        obtain ⟨b, bs, hbytes⟩ := exists_utf8EncodeChar c
        simp [bytes?, hhigh, Piece.atoms, hbytes]
      | escaped c =>
        obtain ⟨b, bs, hbytes⟩ := exists_utf8EncodeChar c
        simp [bytes?, hhigh, Piece.atoms, hbytes]
  | case7 u ps hu hl =>
    have hhigh : ¬ (0xd800 ≤ u ∧ u < 0xdc00) := hu
    have hlow : 0xdc00 ≤ u ∧ u < 0xe000 := hl
    show bytes? (.unit u :: ps.flatMap Piece.atoms) = _
    unfold bytes?
    simp only [if_neg hhigh, if_pos hlow]
    rfl
  | case8 u ps hu hl ih =>
    have hhigh : ¬ (0xd800 ≤ u ∧ u < 0xdc00) := hu
    have hlow : ¬ (0xdc00 ≤ u ∧ u < 0xe000) := hl
    show bytes? (.unit u :: ps.flatMap Piece.atoms) = _
    unfold bytes?
    simp only [if_neg hhigh, if_neg hlow, ih]
    cases meaning? ps <;> rfl

theorem text?_atoms (ps : List Piece) :
    text? (ps.flatMap Piece.atoms) = (meaning? ps).map String.ofList := by
  show (bytes? _).bind decodeLine = _
  rw [bytes?_atoms]
  cases meaning? ps with
  | none => rfl
  | some cs => exact decodeLine_encode cs

/-! ## Numbers -/

theorem digitChar_ascii {d : Nat} (hd : d < 10) : d.digitChar.toNat < 128 :=
  (by decide : ∀ d < 10, d.digitChar.toNat < 128) d hd

theorem digit?_digitChar {d : Nat} (hd : d < 10) :
    digit? (UInt8.ofNat d.digitChar.toNat) = some d :=
  (by decide : ∀ d < 10, digit? (UInt8.ofNat d.digitChar.toNat) = some d) d hd

/-- No digit stands in front. -/
def NoDigit (s : List UInt8) : Prop := ∀ b ∈ s.head?, digit? b = none

/-- A number may end here: no digit stands in front, and nothing that leads to one. -/
def Ends (s : List UInt8) : Prop :=
  ∀ b ∈ s.head?, digit? b = none ∧ b ≠ 0x2e ∧ b ≠ 0x65 ∧ b ≠ 0x45

theorem Ends.noDigit {s : List UInt8} (h : Ends s) : NoDigit s := fun b hb => (h b hb).1

theorem digits_eq_nil {s : List UInt8} (h : NoDigit s) : digits s = ([], s) := by
  cases s with
  | nil => rfl
  | cons b s =>
    unfold digits
    rw [h b rfl]

theorem digits_of_written {ds : List Nat} {cs : List Char} (h : DigitsWritten ds cs)
    {rest : List UInt8} (hrest : NoDigit rest) : digits (encode cs ++ rest) = (ds, rest) := by
  obtain ⟨-, hds, rfl⟩ := h
  induction ds with
  | nil => exact digits_eq_nil hrest
  | cons d ds ih =>
    have hd : d < 10 := hds d (List.mem_cons_self ..)
    rw [List.map_cons, encode_ascii (digitChar_ascii hd), List.cons_append]
    unfold digits
    rw [digit?_digitChar hd, ih fun d' hd' => hds d' (List.mem_cons_of_mem d hd')]

theorem DigitsWritten.exists_cons {ds : List Nat} {cs : List Char} (h : DigitsWritten ds cs) :
    ∃ d ds' cs', ds = d :: ds' ∧ d < 10 ∧ cs = d.digitChar :: cs' ∧
      encode cs = UInt8.ofNat d.digitChar.toNat :: encode cs' := by
  obtain ⟨hne, hds, rfl⟩ := h
  obtain ⟨d, ds, rfl⟩ := List.exists_cons_of_ne_nil hne
  have hd : d < 10 := hds d (List.mem_cons_self ..)
  exact ⟨d, ds, ds.map Nat.digitChar, rfl, hd, rfl, encode_ascii (digitChar_ascii hd) _⟩

theorem fraction?_of_written {ds : List Nat} {cs : List Char} (h : FractionWritten ds cs)
    {rest : List UInt8} (hrest : NoDigit rest) (hpoint : rest.head? ≠ some 0x2e) :
    fraction? (encode cs ++ rest) = some (ds, rest) := by
  cases h with
  | none =>
    show fraction? rest = _
    rw [fraction?.eq_2 rest]
    rintro s rfl
    exact hpoint rfl
  | @some ds cs h =>
    obtain ⟨d, ds', -, rfl, -⟩ := h.exists_cons
    rw [encode_ascii (by decide : '.'.toNat < 128)]
    show fraction? (0x2e :: (encode cs ++ rest)) = _
    rw [fraction?, digits_of_written h hrest]

theorem powerSign_digit {d : Nat} (hd : d < 10) (s : List UInt8) :
    powerSign (UInt8.ofNat d.digitChar.toNat :: s) = (false, UInt8.ofNat d.digitChar.toNat :: s) := by
  have hsigns : ∀ d : Nat, d < 10 → UInt8.ofNat d.digitChar.toNat ≠ 0x2d ∧
      UInt8.ofNat d.digitChar.toNat ≠ 0x2b := by decide
  obtain ⟨hminus, hplus⟩ := hsigns d hd
  unfold powerSign
  split
  · next h => exact absurd (List.cons.inj h).1 hminus
  · next h => exact absurd (List.cons.inj h).1 hplus
  · rfl

theorem powerSign_of_written {sign cs : List Char} {ds : List Nat} (hsign : sign = [] ∨ sign = ['+'])
    (h : DigitsWritten ds cs) (rest : List UInt8) :
    powerSign (encode (sign ++ cs) ++ rest) = (false, encode cs ++ rest) := by
  rcases hsign with rfl | rfl
  · obtain ⟨d, -, cs', -, hd, -, hcs⟩ := h.exists_cons
    rw [List.nil_append, hcs, List.cons_append, powerSign_digit hd]
  · rw [encode_append]
    rfl

/-- A power of ten, read behind its letter. -/
theorem power?_of_sign {e : Char} (he : e = 'e' ∨ e = 'E') {negative : Bool} {ds : List Nat}
    {cs signed : List Char} (h : DigitsWritten ds cs) {rest : List UInt8} (hrest : NoDigit rest)
    (hsign : powerSign (encode signed ++ rest) = (negative, encode cs ++ rest)) :
    power? (encode (e :: signed) ++ rest) = some (some (negative, ds), rest) := by
  obtain ⟨d, ds', -, rfl, -⟩ := h.exists_cons
  have hletter : e.toNat < 128 ∧ (UInt8.ofNat e.toNat = 0x65 ∨ UInt8.ofNat e.toNat = 0x45) := by
    rcases he with rfl | rfl <;> decide
  rw [encode_ascii hletter.1, List.cons_append]
  unfold power?
  dsimp only
  rw [if_pos hletter.2, hsign]
  dsimp only
  rw [digits_of_written h hrest]

theorem power?_of_written {power : Option (Bool × List Nat)} {cs : List Char}
    (h : PowerWritten power cs) {rest : List UInt8} (hrest : Ends rest) :
    power? (encode cs ++ rest) = some (power, rest) := by
  cases h with
  | none =>
    show power? rest = _
    cases rest with
    | nil => rfl
    | cons b rest =>
      obtain ⟨-, -, hsmall, hcapital⟩ := hrest b rfl
      unfold power?
      simp [hsmall, hcapital]
  | positive he hsign h => exact power?_of_sign he h hrest.noDigit (powerSign_of_written hsign h rest)
  | negative he h => exact power?_of_sign he h hrest.noDigit rfl

/-- What follows the digits before the point is no digit, and neither is what follows the
fraction. -/
theorem noDigit_power {power : Option (Bool × List Nat)} {cs : List Char}
    (h : PowerWritten power cs) {rest : List UInt8} (hrest : Ends rest) :
    NoDigit (encode cs ++ rest) ∧ (encode cs ++ rest).head? ≠ some 0x2e := by
  have hletter {e : Char} (he : e = 'e' ∨ e = 'E') (cs : List Char) :
      NoDigit (encode (e :: cs) ++ rest) ∧ (encode (e :: cs) ++ rest).head? ≠ some 0x2e := by
    rcases he with rfl | rfl
    · exact ⟨by rintro _ ⟨⟩; decide, by rintro ⟨⟩⟩
    · exact ⟨by rintro _ ⟨⟩; decide, by rintro ⟨⟩⟩
  cases h with
  | none => exact ⟨hrest.noDigit, fun h => (hrest 0x2e h).2.1 rfl⟩
  | positive he _ _ => exact hletter he _
  | negative he _ => exact hletter he _

theorem noDigit_fraction {ds : List Nat} {cs : List Char} (h : FractionWritten ds cs)
    {rest : List UInt8} (hrest : NoDigit rest) : NoDigit (encode cs ++ rest) := by
  cases h with
  | none => exact hrest
  | some _ => rintro _ ⟨⟩; decide

/-- **A number** behind its sign. -/
theorem numeral?_of_written (negative : Bool) {whole fraction : List Nat}
    {power : Option (Bool × List Nat)} {ws fs ps : List Char} (hwhole : DigitsWritten whole ws)
    (hzero : whole.head? = some 0 → whole = [0]) (hfraction : FractionWritten fraction fs)
    (hpower : PowerWritten power ps) {rest : List UInt8} (hrest : Ends rest) :
    numeral? negative (encode (ws ++ (fs ++ ps)) ++ rest) =
      some (⟨negative, whole, fraction, power⟩, rest) := by
  obtain ⟨hdigit, hpoint⟩ := noDigit_power hpower hrest
  have hdigits := digits_of_written hwhole (noDigit_fraction hfraction hdigit)
  have hparts : encode (ws ++ (fs ++ ps)) ++ rest =
      encode ws ++ (encode fs ++ (encode ps ++ rest)) := by simp
  obtain ⟨d, ds, -, rfl, -⟩ := hwhole.exists_cons
  unfold numeral?
  rw [hparts, hdigits]
  split
  · next h => cases h
  · next h =>
    cases h
    cases hzero rfl
  · next h =>
    cases h
    simp [fraction?_of_written hfraction hdigit hpoint, power?_of_written hpower hrest]

/-! ## Tokens -/

/-- The byte of a digit begins a number, and nothing else. -/
theorem token?_digit {d : Nat} (hd : d < 10) (rest : List UInt8) :
    isSpace (UInt8.ofNat d.digitChar.toNat) = false ∧
      token? (UInt8.ofNat d.digitChar.toNat) rest =
        (numeral? false (UInt8.ofNat d.digitChar.toNat :: rest)).map
          fun (n, rest) => (.number n, rest) := by
  have hbyte : ∀ d : Nat, d < 10 → isSpace (UInt8.ofNat d.digitChar.toNat) = false ∧
      mark? (UInt8.ofNat d.digitChar.toNat) = none ∧ UInt8.ofNat d.digitChar.toNat ≠ 0x22 ∧
      UInt8.ofNat d.digitChar.toNat ≠ 0x6e ∧ UInt8.ofNat d.digitChar.toNat ≠ 0x74 ∧
      UInt8.ofNat d.digitChar.toNat ≠ 0x66 ∧ UInt8.ofNat d.digitChar.toNat ≠ 0x2d := by decide
  obtain ⟨hspace, hmark, hquote, hn, ht, hf, hminus⟩ := hbyte d hd
  refine ⟨hspace, ?_⟩
  unfold token?
  rw [hmark]
  simp only [if_neg hquote, if_neg hn, if_neg ht, if_neg hf, if_neg hminus]

/-- **A token** is told by its first byte, which is no white space, and read up to its end.  A number
has to end where it does. -/
theorem token?_of_written {t : Token} {cs : List Char} (h : t.Written cs) {rest : List UInt8}
    (hrest : t.isNumber = true → Ends rest) :
    ∃ b bs, encode cs = b :: bs ∧ isSpace b = false ∧ token? b (bs ++ rest) = some (t, rest) := by
  cases h with
  | openObject | closeObject | openArray | closeArray | colon | comma =>
    exact ⟨_, [], rfl, rfl, rfl⟩
  | null | yes | no =>
    refine ⟨_, _, rfl, rfl, ?_⟩
    simp [token?, mark?, afterWord?, String.utf8EncodeChar]
  | @number n cs h =>
    have hends : Ends rest := hrest rfl
    cases h with
    | @parts negative whole fraction power ws fs ps hwhole hzero hfraction hpower =>
      have hnumeral := numeral?_of_written negative hwhole hzero hfraction hpower hends
      cases negative with
      | true =>
        refine ⟨0x2d, encode (ws ++ (fs ++ ps)), encode_ascii (by decide) _, rfl, ?_⟩
        show (numeral? true _).map _ = _
        rw [hnumeral]
        rfl
      | false =>
        obtain ⟨d, -, cs', -, hd, -, hbytes⟩ := hwhole.exists_cons
        have hcons : encode (ws ++ (fs ++ ps)) =
            UInt8.ofNat d.digitChar.toNat :: (encode cs' ++ encode (fs ++ ps)) := by
          rw [encode_append, hbytes, List.cons_append]
        obtain ⟨hspace, htoken⟩ := token?_digit hd (encode cs' ++ encode (fs ++ ps) ++ rest)
        refine ⟨_, _, hcons, hspace, ?_⟩
        rw [htoken, ← List.cons_append, ← hcons, hnumeral]
        rfl
  | @text ps cs h =>
    refine ⟨0x22, encode (cs ++ ['"']), encode_ascii (by decide) _, rfl, ?_⟩
    have hquote : encode (cs ++ ['"']) ++ rest = encode cs ++ 0x22 :: rest := by
      rw [encode_append, List.append_assoc]
      rfl
    show (atoms? _).map _ = _
    rw [hquote, atoms?_pieces h, ← text?_atoms]
    rfl

theorem isSpace_of_space {bs : List Char} (h : Space bs) : ∀ b ∈ encode bs, isSpace b = true := by
  intro b hb
  obtain ⟨c, hc, hmem⟩ := List.mem_flatMap.mp hb
  rcases h c hc with rfl | rfl | rfl | rfl <;>
    · obtain rfl := List.mem_singleton.mp hmem
      rfl

/-- **One step** passes over white space and reads a token. -/
theorem step?_of_written {t : Token} {bs cs : List Char} (hbs : Space bs) (h : t.Written cs)
    {rest : List UInt8} (hrest : t.isNumber = true → Ends rest) :
    step? (encode (bs ++ cs) ++ rest) = some (t, rest) := by
  obtain ⟨b, bytes, hcs, hspace, htoken⟩ := token?_of_written h hrest
  have hstart : (encode (bs ++ cs) ++ rest).dropWhile isSpace = b :: (bytes ++ rest) := by
    rw [encode_append, List.append_assoc, List.dropWhile_append_of_pos (isSpace_of_space hbs), hcs,
      List.cons_append, List.dropWhile_cons_of_neg (by simp [hspace])]
  unfold step?
  rw [hstart]
  dsimp only
  rw [htoken]
  rfl

theorem step?_space {bs : List Char} (hbs : Space bs) : step? (encode bs) = none := by
  have hnothing : (encode bs).dropWhile isSpace = [] :=
    List.dropWhile_eq_nil_iff.mpr (isSpace_of_space hbs)
  unfold step?
  rw [hnothing]

theorem tokens_of_step? {s rest : List UInt8} {t : Token} (h : step? s = some (t, rest)) :
    tokens s = t :: tokens rest := by
  rw [tokens]
  split
  · next hnone => rw [h] at hnone; cases hnone
  · next hsome => rw [h] at hsome; cases hsome; rfl

theorem tokens_of_step?_eq_none {s : List UInt8} (h : step? s = none) : tokens s = [] := by
  rw [tokens]
  split
  · rfl
  · next hsome => rw [h] at hsome; cases hsome

/-! ## Rows of tokens -/

/-- The characters that may follow a number. -/
def breaks : List Char :=
  [' ', '\t', '\n', '\r', '\x7b', '\x7d', '[', ']', ':', ',', 'n', 't', 'f', '"']

theorem ends_of_mem_breaks {c : Char} (hc : c ∈ breaks) (cs : List Char) :
    Ends (encode (c :: cs)) := by
  have hbyte : c.toNat < 128 ∧ digit? (UInt8.ofNat c.toNat) = none ∧
      UInt8.ofNat c.toNat ≠ 0x2e ∧ UInt8.ofNat c.toNat ≠ 0x65 ∧ UInt8.ofNat c.toNat ≠ 0x45 := by
    fin_cases hc <;> decide
  obtain ⟨hascii, hends⟩ := hbyte
  rw [encode_ascii hascii]
  rintro _ ⟨⟩
  exact hends

/-- A token that is no number does not begin as one goes on. -/
theorem Token.Written.exists_break {t : Token} {cs : List Char} (h : t.Written cs)
    (ht : t.isNumber = false) : ∃ c cs', cs = c :: cs' ∧ c ∈ breaks := by
  cases h with
  | number _ => cases ht
  | _ => exact ⟨_, _, rfl, by decide⟩

theorem ends_space_append {bs : List Char} (hbs : Space bs) {rest : List Char}
    (hrest : Ends (encode rest)) : Ends (encode (bs ++ rest)) := by
  cases bs with
  | nil => exact hrest
  | cons b bs =>
    refine ends_of_mem_breaks ?_ (bs ++ rest)
    rcases hbs b (List.mem_cons_self ..) with rfl | rfl | rfl | rfl <;> decide

/-- A number may end before any row that does not begin with another number. -/
theorem Spells.ends {ts : List Token} {cs : List Char} (h : Spells ts cs)
    (hts : ∀ t ∈ ts.head?, t.isNumber = false) : Ends (encode cs) := by
  cases h with
  | nil hbs =>
    have hnothing : Ends (encode []) := by rintro _ ⟨⟩
    rw [← List.append_nil cs]
    exact ends_space_append hbs hnothing
  | @cons t ts bs cs rest hbs ht _ =>
    obtain ⟨c, cs', rfl, hc⟩ := ht.exists_break (hts t rfl)
    exact ends_space_append hbs (ends_of_mem_breaks hc (cs' ++ rest))

/-- No number follows another one. -/
def Apart (ts : List Token) : Prop :=
  ts.IsChain fun t t' => t.isNumber = true → t'.isNumber = false

/-- **The tokens of a text** are those that it spells. -/
theorem tokens_of_spells {ts : List Token} {cs : List Char} (h : Spells ts cs) (hts : Apart ts) :
    tokens (encode cs) = ts := by
  induction h with
  | nil hbs => exact tokens_of_step?_eq_none (step?_space hbs)
  | @cons t ts bs cs rest hbs ht hrest ih =>
    obtain ⟨hnext, hapart⟩ := List.isChain_cons.mp hts
    have hends : t.isNumber = true → Ends (encode rest) := fun hnumber =>
      hrest.ends fun t' ht' => hnext t' ht' hnumber
    rw [← List.append_assoc, encode_append, tokens_of_step? (step?_of_written hbs ht hends),
      ih hapart]

/-! ## The tokens of a value -/

theorem apart_append {ts ts' : List Token} (h : Apart ts) (h' : Apart ts')
    (hhead : ∀ t ∈ ts'.head?, t.isNumber = false) : Apart (ts ++ ts') :=
  List.isChain_append.mpr ⟨h, h', fun _ _ t' ht' _ => hhead t' ht'⟩

theorem apart_cons {t : Token} {ts : List Token} (ht : t.isNumber = false) (h : Apart ts) :
    Apart (t :: ts) :=
  List.isChain_cons.mpr ⟨fun _ _ hnumber => absurd hnumber (by simp [ht]), h⟩

namespace Value

theorem isNumber_head?_elementTokens (vs : List Value) :
    ∀ t ∈ (elementTokens [.comma] vs).head?, t.isNumber = false := by
  cases vs <;> · rintro _ ⟨⟩; rfl

theorem isNumber_head?_memberTokens (ms : List (Option String × Value)) :
    ∀ t ∈ (memberTokens [.comma] ms).head?, t.isNumber = false := by
  cases ms <;> · rintro _ ⟨⟩; rfl

mutual

/-- **In a value** a number is followed by a comma or a closing bracket. -/
theorem apart_tokens : ∀ v : Value, Apart v.tokens
  | .null | .boolean _ | .number _ | .text _ => List.isChain_singleton _
  | .array vs => apart_cons rfl (apart_elementTokens (.inl rfl) vs)
  | .object ms => apart_cons rfl (apart_memberTokens (.inl rfl) ms)

theorem apart_elementTokens {lead : List Token} (hlead : lead = [] ∨ lead = [.comma]) :
    ∀ vs : List Value, Apart (elementTokens lead vs)
  | [] => List.isChain_singleton _
  | v :: vs => by
    have hrest := apart_append (apart_tokens v) (apart_elementTokens (.inr rfl) vs)
      (isNumber_head?_elementTokens vs)
    rcases hlead with rfl | rfl
    · exact hrest
    · exact apart_cons rfl hrest

theorem apart_memberTokens {lead : List Token} (hlead : lead = [] ∨ lead = [.comma]) :
    ∀ ms : List (Option String × Value), Apart (memberTokens lead ms)
  | [] => List.isChain_singleton _
  | (name, v) :: ms => by
    have hrest := apart_append (apart_tokens v) (apart_memberTokens (.inr rfl) ms)
      (isNumber_head?_memberTokens ms)
    have hmember : Apart (.text name :: .colon :: (v.tokens ++ memberTokens [.comma] ms)) :=
      apart_cons rfl (apart_cons rfl hrest)
    rcases hlead with rfl | rfl
    · exact hmember
    · exact apart_cons rfl hmember

end

/-- **A text that is written for a value** has its tokens. -/
theorem WrittenAs.tokens_eq {v : Value} {text : String} (h : v.WrittenAs text) :
    Json.tokens text.toUTF8.data.toList = v.tokens := by
  rw [← Trace.encode_toList]
  exact tokens_of_spells h v.apart_tokens

end Value

end SetAssoc.Json

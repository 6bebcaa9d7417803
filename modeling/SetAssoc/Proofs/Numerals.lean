import SetAssoc.Text.Blank
import SetAssoc.Trace.Numeral
import Mathlib.Data.List.Forall2
import Mathlib.Data.Nat.Digits.Lemmas
/-!
# What an operand stands for

A number is spelled to base 16 by digits in letters of either case, the highest digit first, with
any number of zeros before them; a mark may stand in front.  `Numeral.parse` accepts every number of
32 bits that is spelled so.  It accepts one thing more: a plus sign between the mark and the digits
(`parse_eq_ok_iff`).  What it says of any other word is told by the digits in front
(`parse_eq_ofWord`).
-/

namespace SetAssoc.Numeral

open Text (isBlank)

/-! ## Digits -/

/-- The character is the digit for `d`, small or capital. -/
def Writes (c : Char) (d : Nat) : Prop :=
  d < 16 ∧ (c = d.digitChar ∨ c = d.digitChar.toUpper)

instance (c : Char) (d : Nat) : Decidable (Writes c d) := inferInstanceAs (Decidable (_ ∧ _))

/-- What holds of all sixteen digits, small and capital, holds of every character that writes
one. -/
theorem Writes.elim {P : Char → Prop} (h : ∀ d < 16, P d.digitChar ∧ P d.digitChar.toUpper)
    {c : Char} {d : Nat} (hc : Writes c d) : P c := by
  obtain ⟨hd, rfl | rfl⟩ := hc
  · exact (h d hd).1
  · exact (h d hd).2

/-- The digits from `n` on stand in a row, so a character among them is told by its distance from
the first one. -/
theorem writes_of_range {c first last : Char} (n : Nat) (hrange : first ≤ c ∧ c ≤ last)
    (hrow : ∀ k ≤ last.toNat - first.toNat, Writes (Char.ofNat (first.toNat + k)) (n + k)) :
    Writes c (c.toNat - first.toNat + n) := by
  have hfirst : first.toNat ≤ c.toNat := UInt32.le_iff_toNat_le.mp (Char.le_def.mp hrange.1)
  have hlast : c.toNat ≤ last.toNat := UInt32.le_iff_toNat_le.mp (Char.le_def.mp hrange.2)
  have hc := hrow (c.toNat - first.toNat) (by omega)
  rwa [Nat.add_sub_cancel' hfirst, Char.ofNat_toNat, Nat.add_comm n] at hc

theorem digit?_eq_some_iff {c : Char} {d : Nat} : digit? c = some d ↔ Writes c d := by
  constructor
  · intro h
    unfold digit? at h
    split at h
    · next hc =>
      cases h
      exact writes_of_range 0 hc (by decide)
    · split at h
      · next hc =>
        cases h
        exact writes_of_range 10 hc (by decide)
      · split at h
        · next hc =>
          cases h
          exact writes_of_range 10 hc (by decide)
        · cases h
  · rintro ⟨hd, rfl | rfl⟩
    · exact (by decide : ∀ d < 16, digit? d.digitChar = some d) d hd
    · exact (by decide : ∀ d < 16, digit? d.digitChar.toUpper = some d) d hd

theorem Writes.not_isBlank {c : Char} {d : Nat} (h : Writes c d) : isBlank c = false :=
  h.elim (P := fun c => isBlank c = false) (by decide)

theorem Writes.ne_plus {c : Char} {d : Nat} (h : Writes c d) : c ≠ '+' :=
  h.elim (P := (· ≠ '+')) (by decide)

/-! ## Numbers -/

/-- The number with these digits to base 16, the highest one first. -/
def value (ds : List Nat) : Nat := Nat.ofDigits 16 ds.reverse

theorem value_nil : value [] = 0 := rfl

theorem value_cons (d : Nat) (ds : List Nat) :
    value (d :: ds) = d * 16 ^ ds.length + value ds := by
  rw [value, List.reverse_cons, Nat.ofDigits_append, Nat.ofDigits_singleton, List.length_reverse,
    value]
  ring

/-- Reading digits behind those of `n` gives the number of all of them, as long as there is room. -/
theorem digits_eq_ok_iff {n m : Nat} {cs : List Char} (hn : n < UInt32.size) :
    digits n cs = .ok m ↔
      m < UInt32.size ∧ ∃ ds, List.Forall₂ Writes cs ds ∧ m = n * 16 ^ ds.length + value ds := by
  induction cs generalizing n with
  | nil =>
    rw [digits, Except.ok.injEq]
    constructor
    · rintro rfl
      exact ⟨hn, [], .nil, by simp [value_nil]⟩
    · rintro ⟨-, ds, hds, rfl⟩
      cases hds
      simp [value_nil]
  | cons c cs ih =>
    rw [digits]
    cases hc : digit? c with
    | none =>
      constructor
      · intro h
        cases h
      · rintro ⟨-, ds, hds, -⟩
        cases hds with
        | cons hd hds => rw [digit?_eq_some_iff.mpr hd] at hc; cases hc
    | some d =>
      have hsum (ds : List Nat) : n * 16 ^ (d :: ds).length + value (d :: ds) =
          (n * 16 + d) * 16 ^ ds.length + value ds := by
        rw [value_cons, List.length_cons]
        ring
      have hsplit : (∃ ds, List.Forall₂ Writes (c :: cs) ds ∧
            m = n * 16 ^ ds.length + value ds) ↔
          ∃ ds, List.Forall₂ Writes cs ds ∧ m = (n * 16 + d) * 16 ^ ds.length + value ds := by
        constructor
        · rintro ⟨ds, hds, hm⟩
          cases hds with
          | @cons _ d' _ ds hd hds =>
            obtain rfl : d = d' := Option.some.inj (hc.symm.trans (digit?_eq_some_iff.mpr hd))
            exact ⟨ds, hds, hm.trans (hsum ds)⟩
        · rintro ⟨ds, hds, hm⟩
          exact ⟨d :: ds, .cons (digit?_eq_some_iff.mp hc) hds, hm.trans (hsum ds).symm⟩
      rw [hsplit]
      show (if n * 16 + d < UInt32.size then digits (n * 16 + d) cs
        else .error .overflow) = .ok m ↔ _
      split
      · next hroom => exact ih hroom
      · next hroom =>
        constructor
        · intro h
          cases h
        · -- the digits that follow only make the number greater
          rintro ⟨hm, ds, -, rfl⟩
          have hpow : 0 < 16 ^ ds.length := Nat.pow_pos (by decide)
          have := Nat.le_mul_of_pos_right (n * 16 + d) hpow
          omega

/-- These are digits, one or more of them, and they make up the number. -/
def Makes (cs : List Char) (v : UInt32) : Prop :=
  cs ≠ [] ∧ ∃ ds, List.Forall₂ Writes cs ds ∧ value ds = v.toNat

theorem Makes.exists_writes {cs : List Char} {v : UInt32} (h : Makes cs v) {c : Char}
    (hc : c ∈ cs) : ∃ d, Writes c d := by
  obtain ⟨-, ds, hds, -⟩ := h
  induction hds with
  | nil => cases hc
  | cons hd _ ih =>
    rcases List.mem_cons.mp hc with rfl | hc
    · exact ⟨_, hd⟩
    · exact ih hc

theorem digits_map_eq_ok_iff {cs : List Char} (hcs : cs ≠ []) {v : UInt32} :
    (digits 0 cs).map UInt32.ofNat = .ok v ↔ Makes cs v := by
  have hread (m : Nat) : digits 0 cs = .ok m ↔
      m < UInt32.size ∧ ∃ ds, List.Forall₂ Writes cs ds ∧ m = value ds := by
    simpa using (digits_eq_ok_iff (by decide : 0 < UInt32.size) : digits 0 cs = .ok m ↔ _)
  constructor
  · intro h
    cases hd : digits 0 cs with
    | error e => rw [hd] at h; cases h
    | ok m =>
      rw [hd] at h
      obtain ⟨hm, ds, hds, rfl⟩ := (hread m).mp hd
      cases h
      exact ⟨hcs, ds, hds, (UInt32.toNat_ofNat_of_lt' hm).symm⟩
  · rintro ⟨-, ds, hds, hv⟩
    rw [(hread v.toNat).mpr ⟨v.toNat_lt, ds, hds, hv.symm⟩]
    show Except.ok (UInt32.ofNat v.toNat) = _
    rw [UInt32.ofNat_toNat]

/-! ## Operands -/

/-- What may stand before the digits. -/
def marks : List (List Char) := [[], ['0', 'x'], ['0', 'X']]

/-- The text is a mark, the sign given, and digits that make up the number. -/
def Spells (sign text : List Char) (v : UInt32) : Prop :=
  ∃ mark ∈ marks, ∃ cs, text = mark ++ (sign ++ cs) ∧ Makes cs v

theorem exists_mark (text : List Char) : ∃ mark ∈ marks, text = mark ++ dropMark text := by
  unfold dropMark
  split
  · exact ⟨['0', 'x'], by decide, rfl⟩
  · exact ⟨['0', 'X'], by decide, rfl⟩
  · exact ⟨[], by decide, rfl⟩

/-- The mark is told from the digits by its letter. -/
theorem dropMark_append {mark cs : List Char} (hmark : mark ∈ marks)
    (hcs : 'x' ∉ cs ∧ 'X' ∉ cs) : dropMark (mark ++ cs) = cs := by
  simp only [marks, List.mem_cons, List.not_mem_nil, or_false] at hmark
  rcases hmark with rfl | rfl | rfl
  · rw [List.nil_append]
    unfold dropMark
    split
    · exact absurd (by simp) hcs.1
    · exact absurd (by simp) hcs.2
    · rfl
  · rfl
  · rfl

theorem spells_iff {sign text : List Char} {v : UInt32} (hsign : 'x' ∉ sign ∧ 'X' ∉ sign) :
    Spells sign text v ↔ ∃ cs, dropMark text = sign ++ cs ∧ Makes cs v := by
  constructor
  · rintro ⟨mark, hmark, cs, rfl, hcs⟩
    refine ⟨cs, dropMark_append hmark ?_, hcs⟩
    have hletter (c : Char) (hc : c ∈ cs) : c ≠ 'x' ∧ c ≠ 'X' := by
      obtain ⟨d, hd⟩ := hcs.exists_writes hc
      exact hd.elim (P := fun c => c ≠ 'x' ∧ c ≠ 'X') (by decide)
    simp only [List.mem_append, not_or]
    exact ⟨⟨hsign.1, fun h => (hletter _ h).1 rfl⟩, hsign.2, fun h => (hletter _ h).2 rfl⟩
  · rintro ⟨cs, hdrop, hcs⟩
    obtain ⟨mark, hmark, htext⟩ := exists_mark text
    rw [hdrop] at htext
    exact ⟨mark, hmark, cs, htext, hcs⟩

theorem not_makes_plus {cs : List Char} {v : UInt32} : ¬ Makes ('+' :: cs) v := by
  intro h
  obtain ⟨d, hd⟩ := h.exists_writes (List.mem_cons_self ..)
  exact hd.ne_plus rfl

/-- The text spells the number, with a plus sign before the digits or without. -/
def Accepts (text : List Char) (v : UInt32) : Prop := Spells [] text v ∨ Spells ['+'] text v

/-- **What is accepted as an operand.** -/
theorem parse_eq_ok_iff {text : List Char} {v : UInt32} :
    parse text = .ok v ↔ Accepts text v := by
  rw [Accepts, spells_iff (by decide), spells_iff (by decide), parse]
  split
  · next h => simp [h, Makes]
  · next h =>
    rw [h]
    constructor
    · intro herror
      cases herror
    · rintro (⟨cs, rfl, hcs⟩ | ⟨cs, h, hcs⟩)
      · exact absurd hcs not_makes_plus
      · cases h
        exact absurd rfl hcs.1
  · next cs hne h =>
    have hcs : cs ≠ [] := by
      rintro rfl
      exact hne rfl
    rw [h, digits_map_eq_ok_iff hcs]
    constructor
    · intro hmakes
      exact .inr ⟨cs, rfl, hmakes⟩
    · rintro (⟨_, rfl, hmakes⟩ | ⟨_, hcons, hmakes⟩)
      · exact absurd hmakes not_makes_plus
      · cases hcons
        exact hmakes
  · next cs hne hone hplus =>
    rw [digits_map_eq_ok_iff hne]
    constructor
    · intro hmakes
      exact .inl ⟨_, rfl, hmakes⟩
    · rintro (⟨_, rfl, hmakes⟩ | ⟨rest, hcons, -⟩)
      · exact hmakes
      · exact absurd hcons (hplus rest)

/-! ## Words as wholes -/

/-- The digit that a character writes, if it writes one. -/
def writes? (c : Char) : Option Nat := (List.range 16).find? (Writes c ·)

theorem writes?_eq (c : Char) : writes? c = digit? c := by
  cases hc : digit? c with
  | none =>
    refine List.find?_eq_none.mpr fun d _ => ?_
    intro hd
    rw [digit?_eq_some_iff.mpr (of_decide_eq_true hd)] at hc
    cases hc
  | some d =>
    have hd := digit?_eq_some_iff.mp hc
    cases hfind : writes? c with
    | none =>
      have hnone := List.find?_eq_none.mp hfind d (List.mem_range.mpr hd.1)
      exact absurd (decide_eq_true hd) hnone
    | some d' =>
      unfold writes? at hfind
      have hd' : Writes c d' := by simpa using List.find?_some hfind
      exact (digit?_eq_some_iff.mpr hd').symm.trans hc

/-- The digits in front. -/
def leading : List Char → List Nat
  | [] => []
  | c :: cs =>
    match writes? c with
    | some d => d :: leading cs
    | none => []

/-- What stands where the digits of a word should stand: behind the mark, and behind a plus sign
that something follows. -/
def bare (word : List Char) : List Char :=
  let cs := if word.take 2 = ['0', 'x'] ∨ word.take 2 = ['0', 'X'] then word.drop 2 else word
  if cs.head? = some '+' ∧ cs ≠ ['+'] then cs.tail else cs

/-- The number that a word stands for, or what is wrong with it.  A word has too many digits if those
before its first other character have no room, whatever comes behind them. -/
def ofWord (word : List Char) : Except NumeralError UInt32 :=
  let cs := bare word
  let ds := leading cs
  if cs = [] then .error .empty
  else if UInt32.size ≤ value ds then .error .overflow
  else if ds.length < cs.length then .error .invalidDigit
  else .ok (.ofNat (value ds))

/-- Digits read behind those of `n`, all at once. -/
theorem digits_eq {n : Nat} (hn : n < UInt32.size) (cs : List Char) :
    digits n cs =
      let m := n * 16 ^ (leading cs).length + value (leading cs)
      if UInt32.size ≤ m then .error .overflow
      else if (leading cs).length < cs.length then .error .invalidDigit
      else .ok m := by
  dsimp only
  induction cs generalizing n with
  | nil => simp [digits, leading, value_nil, Nat.not_le.mpr hn]
  | cons c cs ih =>
    rw [digits, leading, writes?_eq]
    cases digit? c with
    | none => simp [value_nil, Nat.not_le.mpr hn]
    | some d =>
      dsimp only
      have hsum : n * 16 ^ (d :: leading cs).length + value (d :: leading cs) =
          (n * 16 + d) * 16 ^ (leading cs).length + value (leading cs) := by
        rw [value_cons, List.length_cons]
        ring
      rw [hsum, List.length_cons, List.length_cons]
      split
      · next hroom =>
        rw [ih hroom]
        simp
      · next hroom =>
        -- the digits that follow only make the number greater
        have hpow : 0 < 16 ^ (leading cs).length := Nat.pow_pos (by decide)
        have := Nat.le_mul_of_pos_right (n * 16 + d) hpow
        rw [if_pos (by omega)]

theorem digits_map_eq (cs : List Char) :
    (digits 0 cs).map UInt32.ofNat =
      if UInt32.size ≤ value (leading cs) then .error .overflow
      else if (leading cs).length < cs.length then .error .invalidDigit
      else .ok (.ofNat (value (leading cs))) := by
  rw [digits_eq (by decide), Nat.zero_mul, Nat.zero_add]
  dsimp only
  split
  · rfl
  · split
    · rfl
    · rfl

theorem bare_eq (word : List Char) :
    bare word = if (dropMark word).head? = some '+' ∧ dropMark word ≠ ['+']
      then (dropMark word).tail else dropMark word := by
  have hmark : dropMark word =
      if word.take 2 = ['0', 'x'] ∨ word.take 2 = ['0', 'X'] then word.drop 2 else word := by
    unfold dropMark
    split
    · simp
    · simp
    · next hx hX =>
      refine (if_neg ?_).symm
      rintro (h | h)
      · exact hx _ (by rw [← List.take_append_drop 2 word, h]; rfl)
      · exact hX _ (by rw [← List.take_append_drop 2 word, h]; rfl)
  rw [hmark]
  rfl

theorem ofWord_of_bare {word cs : List Char} (h : bare word = cs) (hcs : cs ≠ []) :
    ofWord word = (digits 0 cs).map UInt32.ofNat := by
  unfold ofWord
  rw [h, if_neg hcs, digits_map_eq]

/-- **A word is read as a whole**, although its characters are gone through one by one. -/
theorem parse_eq_ofWord (word : List Char) : parse word = ofWord word := by
  have hbare := bare_eq word
  unfold parse
  split
  · next h =>
    rw [h] at hbare
    rw [ofWord, hbare]
    rfl
  · next h =>
    rw [h] at hbare
    rw [ofWord_of_bare hbare (by simp)]
    rfl
  · next cs hne h =>
    -- a plus sign that something follows
    have hcs : cs ≠ [] := by
      rintro rfl
      exact hne rfl
    rw [h, if_pos ⟨rfl, by simpa using hcs⟩] at hbare
    rw [ofWord_of_bare hbare hcs, List.tail_cons]
  · next hne _ hplus =>
    have hsign : (dropMark word).head? ≠ some '+' := by
      intro hhead
      obtain ⟨cs, hcs⟩ := List.head?_eq_some_iff.mp hhead
      exact hplus cs hcs
    rw [if_neg fun h => hsign h.1] at hbare
    rw [ofWord_of_bare hbare hne]

end SetAssoc.Numeral

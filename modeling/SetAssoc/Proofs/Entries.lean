import SetAssoc.Proofs.Numerals
import SetAssoc.Trace.Entry
import Mathlib.Data.List.TakeWhile
/-!
# What a line says

A line is a row of words, with white space between them and around them, and what it says depends on
nothing else (`Access.ofLine_eq`).  No words make a blank line, and a first word that begins
with `#` makes a comment.  An `Entry` is a letter with the operands that belong to it.  Which lines
are entries therefore comes down to which words are operands, and so the same account is given
twice: of the lines that are accepted, and of those that spell their numbers as they should.
-/

namespace SetAssoc

/-! ## Words -/

namespace Text

/-- The words of a text, which are the runs of characters between its blanks. -/
def words (cs : List Char) : List (List Char) := (cs.splitOnP isBlank).filter (!·.isEmpty)

@[simp] theorem words_nil : words [] = [] := rfl

/-- A text may be cut at any of its blanks. -/
theorem words_append_cons (xs ys : List Char) {c : Char} (hc : isBlank c = true) :
    words (xs ++ c :: ys) = words xs ++ words ys := by
  rw [words, List.splitOnP_append_cons xs ys hc, List.filter_append, words, words]

theorem words_of_run {w : List Char} (hne : w ≠ []) (hw : ∀ c ∈ w, isBlank c = false) :
    words w = [w] := by
  rw [words, List.splitOnP_eq_singleton hw]
  simp [hne]

theorem words_blanks_append {bs : List Char} (hbs : ∀ c ∈ bs, isBlank c = true) (cs : List Char) :
    words (bs ++ cs) = words cs := by
  induction bs with
  | nil => rfl
  | cons b bs ih =>
    have hb : words ([] ++ b :: (bs ++ cs)) = words [] ++ words (bs ++ cs) :=
      words_append_cons [] _ (hbs b (List.mem_cons_self ..))
    exact hb.trans (ih fun c hc => hbs c (List.mem_cons_of_mem _ hc))

theorem words_blanks {bs : List Char} (hbs : ∀ c ∈ bs, isBlank c = true) : words bs = [] := by
  simpa using words_blanks_append hbs []

/-- A word ends where a blank or the text does. -/
theorem words_run_append {w : List Char} (hne : w ≠ []) (hw : ∀ c ∈ w, isBlank c = false)
    {cs : List Char} (hcs : ∀ c ∈ cs.head?, isBlank c = true) :
    words (w ++ cs) = w :: words cs := by
  cases cs with
  | nil => rw [List.append_nil, words_of_run hne hw, words_nil]
  | cons c cs =>
    have hc : isBlank c = true := hcs c rfl
    rw [words_append_cons w cs hc, words_of_run hne hw]
    exact congrArg (w :: ·) (words_append_cons [] cs hc).symm

theorem words_dropWhile (cs : List Char) : words (cs.dropWhile isBlank) = words cs := by
  conv_rhs => rw [← List.takeWhile_append_dropWhile (p := isBlank) (l := cs)]
  refine (words_blanks_append ?_ _).symm
  intro c hc
  exact List.mem_takeWhile_imp hc

/-- Words lose nothing of a text but its blanks. -/
theorem flatten_words (cs : List Char) : (words cs).flatten = cs.filter (!isBlank ·) := by
  rw [words, List.flatten_filter_not_isEmpty]
  induction cs with
  | nil => rfl
  | cons c cs ih =>
    rw [List.splitOnP_cons_eq_if_modifyHead]
    obtain ⟨w, ws, hws⟩ := List.exists_cons_of_ne_nil (List.splitOnP_ne_nil isBlank cs)
    cases hc : isBlank c with
    | true => simp [hc, ih]
    | false =>
      rw [hws] at ih ⊢
      simpa [hc] using ih

end Text

open Text (isBlank words)

namespace Trace

/-! ## The shape of a line -/

/-- The text does not begin with a blank. -/
def Flush (cs : List Char) : Prop := ∀ c ∈ cs.head?, isBlank c = false

theorem flush_dropWhile (cs : List Char) : Flush (cs.dropWhile isBlank) := by
  intro c hc
  have h := List.head?_dropWhile_not isBlank cs
  rw [hc] at h
  exact h

theorem flush_word (cs : List Char) : Flush (word cs).2 := flush_dropWhile _

/-- **Words are taken off the front** of a text one by one. -/
theorem words_eq_cons {cs : List Char} (h : Flush cs) (hne : cs ≠ []) :
    (word cs).1 ≠ [] ∧ words cs = (word cs).1 :: words (word cs).2 := by
  obtain ⟨c, cs, rfl⟩ := List.exists_cons_of_ne_nil hne
  have hc : isBlank c = false := h c rfl
  have hfirst : (word (c :: cs)).1 ≠ [] := by simp [word, hc]
  have hrun : ∀ x ∈ (word (c :: cs)).1, isBlank x = false := by
    intro x hx
    simpa using List.mem_takeWhile_imp hx
  have hends : ∀ x ∈ ((c :: cs).dropWhile (!isBlank ·)).head?, isBlank x = true := by
    intro x hx
    have h := List.head?_dropWhile_not (!isBlank ·) (c :: cs)
    rw [hx] at h
    simpa using h
  refine ⟨hfirst, ?_⟩
  calc words (c :: cs)
      = words ((word (c :: cs)).1 ++ (c :: cs).dropWhile (!isBlank ·)) := by
        rw [word, List.takeWhile_append_dropWhile]
    _ = (word (c :: cs)).1 :: words ((c :: cs).dropWhile (!isBlank ·)) :=
        Text.words_run_append hfirst hrun hends
    _ = (word (c :: cs)).1 :: words (word (c :: cs)).2 := by
        rw [word, Text.words_dropWhile]

/-- A text is empty, or it is a word and a text that follows. -/
theorem words_cases {cs : List Char} (h : Flush cs) :
    (cs = [] ∧ words cs = []) ∨
      ∃ w rest, cs ≠ [] ∧ w ≠ [] ∧ word cs = (w, rest) ∧ Flush rest ∧
        words cs = w :: words rest := by
  rcases eq_or_ne cs [] with rfl | hne
  · exact .inl ⟨rfl, rfl⟩
  · obtain ⟨hfirst, hcons⟩ := words_eq_cons h hne
    exact .inr ⟨_, _, hne, hfirst, rfl, flush_word cs, hcons⟩

/-- The shape of a row of words: a letter and one or two words more. -/
def Shape.ofWords? : List (List Char) → Option Shape
  | [[letter], address] =>
    if isReadLetter letter || isWriteLetter letter then some ⟨letter, address, none⟩ else none
  | [[letter], address, value] =>
    if isReadLetter letter || isWriteLetter letter then some ⟨letter, address, some value⟩ else none
  | _ => none

/-- **The shape of a line** is that of its words. -/
theorem shape?_eq {cs : List Char} (h : Flush cs) : shape? cs = Shape.ofWords? (words cs) := by
  obtain ⟨rfl, -⟩ | ⟨w, rest, -, hw, hword, hrest, hwords⟩ := words_cases h
  · rfl
  rw [hwords, shape?, hword]
  rcases w with _ | ⟨letter, _ | ⟨x, w⟩⟩
  · exact absurd rfl hw
  · -- the letter stands alone, and the operands follow
    obtain ⟨rfl, hnil⟩ | ⟨address, rest, -, haddress, hword, hrest, hwords⟩ := words_cases hrest
    · rw [hnil]
      simp [word, Shape.ofWords?]
    obtain ⟨a, address, rfl⟩ := List.exists_cons_of_ne_nil haddress
    rw [hwords]
    simp only [hword]
    obtain ⟨rfl, hnil⟩ | ⟨value, last, hne, -, hword, hlast, hwords⟩ := words_cases hrest
    · rw [hnil]
      rfl
    obtain ⟨b, rest, rfl⟩ := List.exists_cons_of_ne_nil hne
    rw [hwords]
    simp only [hword]
    obtain ⟨rfl, hnil⟩ | ⟨extra, more, hne, -, -, -, hwords⟩ := words_cases hlast
    · rw [hnil]
      rfl
    rw [hwords]
    obtain ⟨c, last, rfl⟩ := List.exists_cons_of_ne_nil hne
    simp [Shape.ofWords?]
  · simp [Shape.ofWords?]

theorem ofWords?_eq_some_iff {ws : List (List Char)} {s : Shape} :
    Shape.ofWords? ws = some s ↔
      (isReadLetter s.letter || isWriteLetter s.letter) = true ∧
        ws = [s.letter] :: s.address :: s.value.toList := by
  obtain ⟨letter, address, value⟩ := s
  constructor
  · intro h
    unfold Shape.ofWords? at h
    split at h
    · split at h
      · next hletter =>
        cases h
        exact ⟨hletter, rfl⟩
      · cases h
    · split at h
      · next hletter =>
        cases h
        exact ⟨hletter, rfl⟩
      · cases h
    · cases h
  · rintro ⟨hletter, rfl⟩
    cases value with
    | none => exact if_pos hletter
    | some value => exact if_pos hletter

/-! ## Entries -/

/-- The words are a letter and the operands that belong to it, where `Operand` tells which words
stand for which numbers. -/
inductive Entry (Operand : List Char → UInt32 → Prop) : List (List Char) → Access → Prop
  /-- A read has one operand, its address. -/
  | read {letter : Char} {address : List Char} {a : UInt32}
      (hletter : letter = 'r' ∨ letter = 'R') (haddress : Operand address a) :
      Entry Operand [[letter], address] (.read a)
  /-- A write has two, its address and its value. -/
  | write {letter : Char} {address value : List Char} {a v : UInt32}
      (hletter : letter = 'w' ∨ letter = 'W') (haddress : Operand address a)
      (hvalue : Operand value v) :
      Entry Operand [[letter], address, value] (.write a v)

variable {Operand Operand' : List Char → UInt32 → Prop} {ws : List (List Char)} {op : Access}

theorem Entry.mono (h : Entry Operand ws op)
    (himp : ∀ w ∈ ws, ∀ v, Operand w v → Operand' w v) : Entry Operand' ws op := by
  cases h with
  | read hletter ha => exact .read hletter (himp _ (by simp) _ ha)
  | write hletter ha hv => exact .write hletter (himp _ (by simp) _ ha) (himp _ (by simp) _ hv)

/-- Entries have a shape. -/
theorem Entry.exists_shape (h : Entry Operand ws op) :
    ∃ s : Shape, Shape.ofWords? ws = some s := by
  cases h with
  | @read letter address a hletter ha =>
    refine ⟨⟨letter, address, none⟩, ofWords?_eq_some_iff.mpr ⟨?_, rfl⟩⟩
    rcases hletter with rfl | rfl <;> rfl
  | @write letter address value a v hletter ha hv =>
    refine ⟨⟨letter, address, some value⟩, ofWords?_eq_some_iff.mpr ⟨?_, rfl⟩⟩
    rcases hletter with rfl | rfl <;> rfl

/-- There are no words, or they are a comment. -/
def isSilent : List (List Char) → Bool
  | [] => true
  | w :: _ => w.head? == some '#'

/-- A comment is told by the first character of the text. -/
theorem isSilent_words {cs : List Char} (h : Flush cs) :
    isSilent (words cs) = true ↔ cs = [] ∨ cs.head? = some '#' := by
  obtain ⟨rfl, -⟩ | ⟨w, rest, hne, -, hword, -, hwords⟩ := words_cases h
  · simp [isSilent]
  · obtain ⟨c, cs, rfl⟩ := List.exists_cons_of_ne_nil hne
    obtain rfl : (c :: cs).takeWhile (!isBlank ·) = w := congrArg Prod.fst hword
    have hc : isBlank c = false := h c rfl
    rw [hwords]
    simp [isSilent, hc]

theorem ofWords?_of_isSilent (h : isSilent ws = true) : Shape.ofWords? ws = none := by
  unfold Shape.ofWords?
  split
  · next letter address =>
    obtain rfl : letter = '#' := by simpa [isSilent] using h
    rfl
  · next letter address value =>
    obtain rfl : letter = '#' := by simpa [isSilent] using h
    rfl
  · rfl

/-- A computation in two steps succeeds if both do. -/
theorem bind_eq_ok_iff {ε α β : Type} {x : Except ε α} {f : α → Except ε β} {r : β} :
    x >>= f = .ok r ↔ ∃ a, x = .ok a ∧ f a = .ok r := by
  cases x with
  | error e => simp [bind, Except.bind]
  | ok a => simp [bind, Except.bind]

/-- It fails if either of them does, the second one only after the first succeeded. -/
theorem bind_eq_error_iff {ε α β : Type} {x : Except ε α} {f : α → Except ε β} {e : ε} :
    x >>= f = .error e ↔ x = .error e ∨ ∃ a, x = .ok a ∧ f a = .error e := by
  cases x with
  | error e' => simp [bind, Except.bind]
  | ok a => simp [bind, Except.bind]

theorem operand_eq_ok_iff {line : Nat} {text : List Char} {v : UInt32} :
    operand line text = .ok v ↔ Numeral.Accepts text v := by
  rw [← Numeral.parse_eq_ok_iff, operand]
  cases Numeral.parse text with
  | error e => simp [Except.mapError]
  | ok u => simp [Except.mapError]

/-- The access in a line of this shape. -/
def Shape.read (line : Nat) (text : String) (s : Shape) : Except TraceError (Option Access) := do
  let address ← operand line s.address
  let value ← s.value.mapM (operand line)
  match isReadLetter s.letter, value with
  | true, none => .ok (some (.read address))
  | false, some v => .ok (some (.write address v))
  | _, _ => .error (.notAnEntry line text)

theorem Shape.read_eq_ok_iff {line : Nat} {text : String} {s : Shape} {o : Option Access}
    (hs : Shape.ofWords? ws = some s) :
    s.read line text = .ok o ↔ ∃ op, o = some op ∧ Entry Numeral.Accepts ws op := by
  obtain ⟨hletter, rfl⟩ := ofWords?_eq_some_iff.mp hs
  obtain ⟨letter, address, value⟩ := s
  rw [Bool.or_eq_true] at hletter
  rw [Shape.read, bind_eq_ok_iff]
  constructor
  · rintro ⟨a, ha, h⟩
    obtain ⟨v?, hv, h⟩ := bind_eq_ok_iff.mp h
    have haddress := operand_eq_ok_iff.mp ha
    cases value with
    | none =>
      cases hv
      cases hread : isReadLetter letter with
      | true =>
        simp only [hread, Except.ok.injEq] at h
        exact ⟨.read a, h.symm, .read (by simpa [isReadLetter] using hread) haddress⟩
      | false => simp [hread] at h
    | some value =>
      cases hoperand : operand line value with
      | error e =>
        rw [Option.mapM_some, hoperand] at hv
        cases hv
      | ok v =>
        rw [Option.mapM_some, hoperand] at hv
        cases hv
        cases hread : isReadLetter letter with
        | true => simp [hread] at h
        | false =>
          simp only [hread, Except.ok.injEq] at h
          have hwrite : isWriteLetter letter = true := by simpa [hread] using hletter
          exact ⟨.write a v, h.symm,
            .write (by simpa [isWriteLetter] using hwrite) haddress (operand_eq_ok_iff.mp hoperand)⟩
  · rintro ⟨op, rfl, h⟩
    cases value with
    | none =>
      simp only [Option.toList_none] at h
      cases h with
      | read hread haddress =>
        refine ⟨_, operand_eq_ok_iff.mpr haddress, ?_⟩
        rcases hread with rfl | rfl <;> rfl
    | some value =>
      simp only [Option.toList_some] at h
      cases h with
      | write hwrite haddress hvalue =>
        refine ⟨_, operand_eq_ok_iff.mpr haddress, ?_⟩
        simp only [Option.mapM_some, operand_eq_ok_iff.mpr hvalue]
        rcases hwrite with rfl | rfl <;> rfl

end Trace

open Trace

/-- **What a line says** is told by its words. -/
theorem Access.ofLine_eq (line : Nat) (text : String) :
    Access.ofLine line text =
      if isSilent (words text.toList) then .ok none
      else match Shape.ofWords? (words text.toList) with
        | none => .error (.notAnEntry line text)
        | some s => s.read line text := by
  have hflush := flush_dropWhile text.toList
  rw [← Text.words_dropWhile, ← shape?_eq hflush, Access.ofLine]
  generalize text.toList.dropWhile isBlank = cs at hflush ⊢
  rcases cs with _ | ⟨c, cs⟩
  · rfl
  rcases eq_or_ne c '#' with rfl | hc
  · rw [if_pos ((isSilent_words hflush).mpr (.inr rfl))]
    rfl
  · have hsilent : ¬ isSilent (words (c :: cs)) = true := by
      rw [isSilent_words hflush]
      simpa using hc
    rw [if_neg hsilent]
    split
    · next h => cases h
    · next h => exact absurd (List.cons.inj h).1 hc
    · rfl

theorem Access.ofLine_eq_none_iff {line : Nat} {text : String} :
    Access.ofLine line text = .ok none ↔ isSilent (words text.toList) = true := by
  rw [Access.ofLine_eq]
  split
  · next h => simp [h]
  · next h =>
    rw [iff_false_right h]
    split
    · exact nofun
    · next s hs =>
      rw [Shape.read_eq_ok_iff hs]
      exact nofun

theorem Access.ofLine_eq_some_iff {line : Nat} {text : String} {op : Access} :
    Access.ofLine line text = .ok (some op) ↔ Entry Numeral.Accepts (words text.toList) op := by
  rw [Access.ofLine_eq]
  constructor
  · intro h
    split at h
    · cases h
    · split at h
      · cases h
      · next s hs =>
        obtain ⟨op, hop, hentry⟩ := (Shape.read_eq_ok_iff hs).mp h
        cases hop
        exact hentry
  · intro h
    obtain ⟨s, hs⟩ := h.exists_shape
    have hsilent : ¬ isSilent (words text.toList) = true := by
      intro hsilent
      rw [ofWords?_of_isSilent hsilent] at hs
      cases hs
    rw [if_neg hsilent, hs]
    exact (Shape.read_eq_ok_iff hs).mpr ⟨op, rfl, h⟩

/-! ## Complaints about a line -/

/-- The line that a complaint names. -/
def TraceError.line? : TraceError → Option Nat
  | .notAnEntry line _ => some line
  | .notANumber line _ _ => some line
  | .unreadable _ => none

namespace Trace

theorem line?_of_operand_eq_error {line : Nat} {text : List Char} {e : TraceError}
    (h : operand line text = .error e) : e.line? = some line := by
  rw [operand] at h
  cases hparse : Numeral.parse text with
  | ok v => simp [hparse, Except.mapError] at h
  | error cause =>
    rw [hparse] at h
    cases h
    rfl

theorem Shape.line?_of_read_eq_error {line : Nat} {text : String} {s : Shape} {e : TraceError}
    (h : s.read line text = .error e) : e.line? = some line := by
  rw [Shape.read, bind_eq_error_iff] at h
  rcases h with ha | ⟨a, -, h⟩
  · exact line?_of_operand_eq_error ha
  · rcases bind_eq_error_iff.mp h with hv | ⟨v?, -, h⟩
    · cases hvalue : s.value with
      | none =>
        rw [hvalue] at hv
        cases hv
      | some value =>
        rw [hvalue, Option.mapM_some] at hv
        cases hoperand : operand line value with
        | ok v =>
          rw [hoperand] at hv
          cases hv
        | error cause =>
          rw [hoperand] at hv
          cases hv
          exact line?_of_operand_eq_error hoperand
    · split at h
      · cases h
      · cases h
      · cases h
        rfl

end Trace

/-- **Complaints about a line** name its number. -/
theorem Access.line?_of_ofLine_eq_error {line : Nat} {text : String} {e : TraceError}
    (h : Access.ofLine line text = .error e) : e.line? = some line := by
  rw [Access.ofLine_eq] at h
  split at h
  · cases h
  · split at h
    · cases h
      rfl
    · exact Shape.line?_of_read_eq_error h

/-! ## Entries spelled as they should be -/

namespace Trace

theorem spells_iff_accepts {text : List Char} {v : UInt32} :
    Numeral.Spells [] text v ↔ Numeral.Accepts text v ∧ '+' ∉ text := by
  constructor
  · intro h
    refine ⟨.inl h, ?_⟩
    obtain ⟨mark, hmark, cs, rfl, hcs⟩ := h
    intro hplus
    rcases List.mem_append.mp hplus with hplus | hplus
    · simp only [Numeral.marks, List.mem_cons, List.not_mem_nil, or_false] at hmark
      rcases hmark with rfl | rfl | rfl <;> simp at hplus
    · obtain ⟨d, hd⟩ := hcs.exists_writes hplus
      exact hd.ne_plus rfl
  · rintro ⟨h | ⟨mark, hmark, cs, rfl, hcs⟩, hplus⟩
    · exact h
    · exact absurd (by simp) hplus

theorem entry_spelled_iff {ws : List (List Char)} {op : Access} :
    Entry (Numeral.Spells []) ws op ↔ Entry Numeral.Accepts ws op ∧ ∀ w ∈ ws, '+' ∉ w := by
  constructor
  · intro h
    refine ⟨h.mono fun w _ v hv => (spells_iff_accepts.mp hv).1, ?_⟩
    cases h with
    | read hletter ha =>
      simp only [List.forall_mem_cons]
      refine ⟨?_, (spells_iff_accepts.mp ha).2, by simp⟩
      rcases hletter with rfl | rfl <;> decide
    | write hletter ha hv =>
      simp only [List.forall_mem_cons]
      refine ⟨?_, (spells_iff_accepts.mp ha).2, (spells_iff_accepts.mp hv).2, by simp⟩
      rcases hletter with rfl | rfl <;> decide
  · rintro ⟨h, hplus⟩
    exact h.mono fun w hw v hv => spells_iff_accepts.mpr ⟨hv, hplus w hw⟩

end Trace

namespace Access

/-- **Which lines are accepted as entries.**  Those whose words are a letter and the operands that
belong to it, where an operand may have a plus sign before its digits.  Where the line has no plus
sign at all, they are the entries that spell their numbers as they should. -/
theorem ofLine_eq_entry_iff (line : Nat) (text : String) (op : Access) :
    (ofLine line text = .ok (some op) ↔ Entry Numeral.Accepts (words text.toList) op) ∧
    (Entry (Numeral.Spells []) (words text.toList) op ↔
      ofLine line text = .ok (some op) ∧ '+' ∉ text.toList) := by
  refine ⟨ofLine_eq_some_iff, ?_⟩
  rw [entry_spelled_iff, ofLine_eq_some_iff]
  have hplus : '+' ∈ text.toList ↔ ∃ w ∈ words text.toList, '+' ∈ w := by
    rw [← List.mem_flatten, Text.flatten_words, List.mem_filter]
    exact ⟨fun h => ⟨h, by decide⟩, And.left⟩
  simp [hplus]

/-- A sign is no digit, and yet it is accepted. -/
theorem ofLine_of_signed :
    ofLine 1 "R +4" = .ok (some (.read 4)) ∧
      ¬ ∀ (line : Nat) (text : String) (op : Access), ofLine line text = .ok (some op) →
        Entry (Numeral.Spells []) (words text.toList) op := by
  have hread : ofLine 1 "R +4" = .ok (some (.read 4)) := by decide
  refine ⟨hread, ?_⟩
  intro h
  have hspelled := h 1 "R +4" (.read 4) hread
  exact (entry_spelled_iff.mp hspelled).2 ['+', '4'] (by decide) (by decide)

end Access

end SetAssoc

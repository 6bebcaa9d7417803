import SetAssoc.Proofs.Entries
import SetAssoc.Text.Pattern
import Mathlib.Data.List.DropRight
/-!
# Lines by pattern and by word

What a line says can be told in two more ways.  One looks for a pattern: a letter and one or two
operands, with white space between them and around them.  The other takes the words of the line and
never looks at its characters again, except to tell the number of an operand, for which the word is
taken as a whole (`number`).  Both agree with the reader of lines, whatever the text.

A pattern can fit in more than one way in general, but not this one.  Blanks are no part of an
operand, so a stretch of blanks and an operand each end where the other begins, and every way to fit
the pattern names the words of the line (`shape_of_mem_ways`).  Where the words are right there is
such a way (`exists_mem_ways`), and it names the letter and the first operand, so that both can be
asked for.
-/

namespace SetAssoc

universe u

open Text (isBlank words Place Pattern)

/-! ## The ways of a pattern -/

namespace Text.Pattern

variable {κ : Type u} {behind ahead : List Char} {parts : List (κ × List Char)} {t : Place κ}

theorem mem_ways_start : t ∈ start.ways ⟨behind, ahead, parts⟩ ↔
    behind = [] ∧ t = ⟨behind, ahead, parts⟩ := by
  simp only [ways]
  split
  · next h => simp [h]
  · next h => simp [h]

theorem mem_ways_stop : t ∈ stop.ways ⟨behind, ahead, parts⟩ ↔
    ahead = [] ∧ t = ⟨behind, ahead, parts⟩ := by
  simp only [ways]
  split
  · next h => simp [h]
  · next h => simp [h]

theorem mem_ways_one {p : Char → Bool} : t ∈ (one p).ways ⟨behind, ahead, parts⟩ ↔
    ∃ c rest, p c = true ∧ ahead = c :: rest ∧ t = ⟨behind ++ [c], rest, parts⟩ := by
  cases ahead with
  | nil => simp [ways]
  | cons c rest => simp [ways, Place.skip]

/-- A repetition may stop before any character, as long as those before it are of the class. -/
theorem mem_ways_many {p : Char → Bool} : t ∈ (many p).ways ⟨behind, ahead, parts⟩ ↔
    ∃ run rest, (∀ c ∈ run, p c = true) ∧ ahead = run ++ rest ∧
      t = ⟨behind ++ run, rest, parts⟩ := by
  simp only [ways, List.mem_map, List.mem_reverse, List.mem_range, Nat.lt_succ_iff]
  constructor
  · rintro ⟨n, hn, rfl⟩
    refine ⟨ahead.take n, ahead.drop n, ?_, (List.take_append_drop n ahead).symm, rfl⟩
    intro c hc
    have hsub : ahead.take n <+: ahead.takeWhile p :=
      List.prefix_of_prefix_length_le (List.take_prefix n ahead) (List.takeWhile_prefix p)
        (Nat.le_trans (List.length_take_le n ahead) hn)
    exact List.mem_takeWhile_imp (hsub.subset hc)
  · rintro ⟨run, rest, hrun, rfl, rfl⟩
    refine ⟨run.length, ?_, by simp [Place.skip]⟩
    rw [List.takeWhile_append_of_pos hrun, List.length_append]
    exact Nat.le_add_right _ _

theorem mem_ways_seq {first second : Pattern κ} {s : Place κ} :
    t ∈ (first.seq second).ways s ↔ ∃ s' ∈ first.ways s, t ∈ second.ways s' :=
  List.mem_flatMap

theorem mem_ways_of_seq {first second : Pattern κ} {s s' : Place κ} (h₁ : s' ∈ first.ways s)
    (h₂ : t ∈ second.ways s') : t ∈ (first.seq second).ways s :=
  mem_ways_seq.mpr ⟨s', h₁, h₂⟩

theorem mem_ways_some1 {p : Char → Bool} : t ∈ (some1 p).ways ⟨behind, ahead, parts⟩ ↔
    ∃ run rest, run ≠ [] ∧ (∀ c ∈ run, p c = true) ∧ ahead = run ++ rest ∧
      t = ⟨behind ++ run, rest, parts⟩ := by
  rw [some1, mem_ways_seq]
  constructor
  · rintro ⟨s', hs', ht⟩
    obtain ⟨c, rest, hc, rfl, rfl⟩ := mem_ways_one.mp hs'
    obtain ⟨run, rest, hrun, rfl, rfl⟩ := mem_ways_many.mp ht
    exact ⟨c :: run, rest, by simp, List.forall_mem_cons.mpr ⟨hc, hrun⟩, rfl, by simp⟩
  · rintro ⟨run, rest, hne, hrun, rfl, rfl⟩
    obtain ⟨c, run, rfl⟩ := List.exists_cons_of_ne_nil hne
    obtain ⟨hc, hrun⟩ := List.forall_mem_cons.mp hrun
    refine ⟨_, mem_ways_one.mpr ⟨c, run ++ rest, hc, rfl, rfl⟩, ?_⟩
    exact mem_ways_many.mpr ⟨run, rest, hrun, rfl, by simp⟩

theorem mem_ways_optional (inner : Pattern κ) {s : Place κ} :
    t ∈ inner.optional.ways s ↔ t ∈ inner.ways s ∨ t = s := by
  simp [ways]

theorem mem_ways_named {name : κ} {inner : Pattern κ} {s : Place κ} :
    t ∈ (named name inner).ways s ↔ ∃ s' ∈ inner.ways s,
      t = { s' with parts := s'.parts ++ [(name, s'.behind.drop s.behind.length)] } := by
  simp only [ways, List.mem_map]
  exact exists_congr fun s' => and_congr_right fun _ => eq_comm

/-- A character with a name. -/
theorem mem_ways_named_one (name : κ) {p : Char → Bool} :
    t ∈ (named name (one p)).ways ⟨behind, ahead, parts⟩ ↔
      ∃ c rest, p c = true ∧ ahead = c :: rest ∧
        t = ⟨behind ++ [c], rest, parts ++ [(name, [c])]⟩ := by
  rw [mem_ways_named]
  constructor
  · rintro ⟨s', hs', rfl⟩
    obtain ⟨c, rest, hc, rfl, rfl⟩ := mem_ways_one.mp hs'
    exact ⟨c, rest, hc, rfl, by simp⟩
  · rintro ⟨c, rest, hc, rfl, rfl⟩
    exact ⟨_, mem_ways_one.mpr ⟨c, rest, hc, rfl, rfl⟩, by simp⟩

/-- A run with a name. -/
theorem mem_ways_named_some1 (name : κ) {p : Char → Bool} :
    t ∈ (named name (some1 p)).ways ⟨behind, ahead, parts⟩ ↔
      ∃ run rest, run ≠ [] ∧ (∀ c ∈ run, p c = true) ∧ ahead = run ++ rest ∧
        t = ⟨behind ++ run, rest, parts ++ [(name, run)]⟩ := by
  rw [mem_ways_named]
  constructor
  · rintro ⟨s', hs', rfl⟩
    obtain ⟨run, rest, hne, hrun, rfl, rfl⟩ := mem_ways_some1.mp hs'
    exact ⟨run, rest, hne, hrun, rfl, by simp⟩
  · rintro ⟨run, rest, hne, hrun, rfl, rfl⟩
    exact ⟨_, mem_ways_some1.mpr ⟨run, rest, hne, hrun, rfl, rfl⟩, by simp⟩

/-- A shape that stands at the beginning of a text is looked for nowhere else. -/
theorem parts?_of_start {shape : Pattern κ} (hstart : ∀ s, ∀ t ∈ shape.ways s, s.behind = [])
    (text : List Char) :
    shape.parts? text = (shape.ways ⟨[], text, []⟩).head?.map Place.parts := by
  have hlater : ((List.range text.length).map Nat.succ).findSome? (fun n =>
      (shape.ways (Place.skip ⟨[], text, []⟩ n)).head?.map Place.parts) = none := by
    rw [List.findSome?_eq_none_iff]
    intro n hn
    obtain ⟨k, hk, rfl⟩ := List.mem_map.mp hn
    have htext : text ≠ [] := List.ne_nil_of_length_pos (Nat.zero_lt_of_lt (List.mem_range.mp hk))
    rw [Option.map_eq_none_iff, List.head?_eq_none_iff, List.eq_nil_iff_forall_not_mem]
    intro t ht
    simpa [Place.skip, htext] using hstart _ t ht
  have hhere : Place.skip (⟨[], text, []⟩ : Place κ) 0 = ⟨[], text, []⟩ := rfl
  rw [parts?, List.range_succ_eq_map, List.findSome?_cons, hlater, hhere]
  cases (shape.ways ⟨[], text, []⟩).head?.map Place.parts with
  | none => rfl
  | some parts => rfl

end Text.Pattern

/-! ## Words and blanks -/

namespace Text

/-- Blanks at the end of a text are part of no word. -/
theorem words_append_blanks (cs : List Char) {bs : List Char} (hbs : ∀ c ∈ bs, isBlank c = true) :
    words (cs ++ bs) = words cs := by
  cases bs with
  | nil => rw [List.append_nil]
  | cons b bs =>
    obtain ⟨hb, hbs⟩ := List.forall_mem_cons.mp hbs
    rw [words_append_cons cs bs hb, words_blanks hbs, List.append_nil]

/-- Blanks and a run, followed by a blank or the end, are one word. -/
theorem words_gap_run {gap w rest : List Char} (hgap : ∀ c ∈ gap, isBlank c = true) (hne : w ≠ [])
    (hw : ∀ c ∈ w, isBlank c = false) (hrest : ∀ c ∈ rest.head?, isBlank c = true) :
    words (gap ++ (w ++ rest)) = w :: words rest := by
  rw [words_blanks_append hgap, words_run_append hne hw hrest]

theorem isBlank_head?_append {gap : List Char} (hne : gap ≠ [])
    (hgap : ∀ c ∈ gap, isBlank c = true) (rest : List Char) :
    ∀ c ∈ (gap ++ rest).head?, isBlank c = true := by
  intro c hc
  rw [List.head?_append_of_ne_nil _ hne] at hc
  exact hgap c (List.mem_of_mem_head? hc)

/-- A text without words is blank. -/
theorem isBlank_of_words_eq_nil {cs : List Char} (h : words cs = []) :
    ∀ c ∈ cs, isBlank c = true := by
  have hblank := flatten_words cs
  rw [h, List.flatten_nil, eq_comm, List.filter_eq_nil_iff] at hblank
  simpa using hblank

/-- A text with words begins with blanks and the first of them, and another blank or the end comes
after that. -/
theorem exists_of_words_eq_cons {cs w : List Char} {ws : List (List Char)}
    (h : words cs = w :: ws) :
    ∃ lead rest, cs = lead ++ (w ++ rest) ∧ (∀ c ∈ lead, isBlank c = true) ∧ w ≠ [] ∧
      (∀ c ∈ w, isBlank c = false) ∧ (∀ c ∈ rest.head?, isBlank c = true) ∧ words rest = ws := by
  have hflush := Trace.flush_dropWhile cs
  rw [← words_dropWhile] at h
  have hcs := List.takeWhile_append_dropWhile (p := isBlank) (l := cs)
  generalize cs.dropWhile isBlank = text at h hflush hcs
  have hne : text ≠ [] := by
    rintro rfl
    cases h
  obtain ⟨hfirst, hwords⟩ := Trace.words_eq_cons hflush hne
  rw [h, List.cons.injEq, Trace.word, words_dropWhile] at hwords
  obtain ⟨rfl, rfl⟩ := hwords
  refine ⟨cs.takeWhile isBlank, text.dropWhile (!isBlank ·), ?_, ?_, hfirst, ?_, ?_, rfl⟩
  · rw [List.takeWhile_append_dropWhile, hcs]
  · exact fun c hc => List.mem_takeWhile_imp hc
  · exact fun c hc => by simpa using List.mem_takeWhile_imp hc
  · intro c hc
    have hends := List.head?_dropWhile_not (!isBlank ·) text
    rw [hc] at hends
    simpa using hends

/-- The text without the blanks around it. -/
def trim (cs : List Char) : List Char := (cs.dropWhile isBlank).rdropWhile isBlank

theorem words_trim (cs : List Char) : words (trim cs) = words cs := by
  have hend : ∀ c ∈ (cs.dropWhile isBlank).rtakeWhile isBlank, isBlank c = true :=
    fun c hc => List.mem_rtakeWhile_imp hc
  rw [← words_dropWhile cs, trim]
  conv_rhs => rw [← List.rdropWhile_append_rtakeWhile (p := isBlank) (l := cs.dropWhile isBlank)]
  rw [words_append_blanks _ hend]

theorem flush_trim (cs : List Char) : Trace.Flush (trim cs) := by
  intro c hc
  obtain ⟨rest, hrest⟩ := List.rdropWhile_prefix isBlank (cs.dropWhile isBlank)
  refine Trace.flush_dropWhile cs c ?_
  rw [← hrest]
  exact List.mem_head?_append_of_mem_head? hc

end Text

namespace Trace

/-! ## The pattern of an entry -/

/-- What an operand or a letter is to its entry. -/
inductive Role where
  /-- It says what kind of access this is. -/
  | letter
  /-- It is the address. -/
  | address
  /-- It is the value. -/
  | value
deriving DecidableEq, Repr

/-- The letters of both kinds of entries. -/
def isLetter (c : Char) : Bool := isReadLetter c || isWriteLetter c

/-- The pattern of an operand and the blanks before it. -/
def operandPattern (role : Role) : Pattern Role :=
  (Pattern.some1 isBlank).seq (.named role (.some1 (!isBlank ·)))

/-- **The pattern of an entry:** a letter, an operand and perhaps another one, with blanks between
them and around them, from the beginning of the text to its end. -/
def entryPattern : Pattern Role :=
  Pattern.start
    |>.seq (.many isBlank)
    |>.seq (.named .letter (.one isLetter))
    |>.seq (operandPattern .address)
    |>.seq (.optional (operandPattern .value))
    |>.seq ((Pattern.many isBlank).seq .stop)

/-- The parts of a shape by name. -/
def Shape.parts (s : Shape) : List (Role × List Char) :=
  (.letter, [s.letter]) :: (.address, s.address) :: s.value.toList.map (.value, ·)

/-- Words that have a shape begin with a letter. -/
theorem ofWords?_of_isLetter {letter : Char} (hletter : isLetter letter = true)
    (address : List Char) (value : Option (List Char)) :
    Shape.ofWords? ([letter] :: address :: value.toList) = some ⟨letter, address, value⟩ :=
  ofWords?_eq_some_iff.mpr ⟨hletter, rfl⟩

theorem isLetter_iff {c : Char} :
    isLetter c = true ↔ (c = 'r' ∨ c = 'R') ∨ c = 'w' ∨ c = 'W' := by
  simp [isLetter, isReadLetter, isWriteLetter]

theorem not_isBlank_of_isLetter {c : Char} (h : isLetter c = true) : isBlank c = false := by
  rcases isLetter_iff.mp h with (rfl | rfl) | rfl | rfl <;> rfl

open Text Text.Pattern

theorem mem_ways_operandPattern (role : Role) {behind ahead : List Char}
    {parts : List (Role × List Char)} {t : Place Role} :
    t ∈ (operandPattern role).ways ⟨behind, ahead, parts⟩ ↔
      ∃ gap w rest, (gap ≠ [] ∧ ∀ c ∈ gap, isBlank c = true) ∧
        (w ≠ [] ∧ ∀ c ∈ w, isBlank c = false) ∧ ahead = gap ++ (w ++ rest) ∧
        t = ⟨behind ++ gap ++ w, rest, parts ++ [(role, w)]⟩ := by
  rw [operandPattern, mem_ways_seq]
  constructor
  · rintro ⟨s', hs', ht⟩
    obtain ⟨gap, _, hne, hgap, rfl, rfl⟩ := mem_ways_some1.mp hs'
    obtain ⟨w, rest, hwne, hw, rfl, rfl⟩ := (mem_ways_named_some1 _).mp ht
    exact ⟨gap, w, rest, ⟨hne, hgap⟩, ⟨hwne, by simpa using hw⟩, rfl, rfl⟩
  · rintro ⟨gap, w, rest, ⟨hne, hgap⟩, ⟨hwne, hw⟩, rfl, rfl⟩
    refine ⟨_, mem_ways_some1.mpr ⟨gap, w ++ rest, hne, hgap, rfl, rfl⟩, ?_⟩
    exact (mem_ways_named_some1 _).mpr ⟨w, rest, hwne, by simpa using hw, rfl, rfl⟩

/-- Blanks up to the end of the text. -/
theorem mem_ways_blanks_stop {s t : Place Role} :
    t ∈ ((Pattern.many isBlank).seq .stop).ways s ↔
      (∀ c ∈ s.ahead, isBlank c = true) ∧ t = ⟨s.behind ++ s.ahead, [], s.parts⟩ := by
  obtain ⟨behind, ahead, parts⟩ := s
  rw [mem_ways_seq]
  constructor
  · rintro ⟨s', hs', ht⟩
    obtain ⟨run, rest, hrun, rfl, rfl⟩ := mem_ways_many.mp hs'
    obtain ⟨rfl, rfl⟩ := mem_ways_stop.mp ht
    simpa using hrun
  · rintro ⟨hblank, rfl⟩
    refine ⟨_, mem_ways_many.mpr ⟨ahead, [], hblank, (List.append_nil ahead).symm, rfl⟩, ?_⟩
    exact mem_ways_stop.mpr ⟨rfl, rfl⟩

/-- Every way to fit the pattern names the words of the text. -/
theorem shape_of_mem_ways {cs : List Char} {t : Place Role}
    (ht : t ∈ entryPattern.ways ⟨[], cs, []⟩) :
    ∃ s, Shape.ofWords? (words cs) = some s ∧ t.parts = s.parts := by
  rw [entryPattern, mem_ways_seq] at ht
  obtain ⟨s₅, ht, hend⟩ := ht
  obtain ⟨htail, rfl⟩ := mem_ways_blanks_stop.mp hend
  simp only [mem_ways_seq, mem_ways_optional] at ht
  obtain ⟨s₄, ⟨s₃, ⟨s₂, ⟨s₁, h₁, h₂⟩, h₃⟩, h₄⟩, h₅⟩ := ht
  obtain ⟨-, rfl⟩ := mem_ways_start.mp h₁
  obtain ⟨lead, _, hlead, rfl, rfl⟩ := mem_ways_many.mp h₂
  obtain ⟨letter, _, hletter, rfl, rfl⟩ := (mem_ways_named_one _).mp h₃
  obtain ⟨gap, address, after, ⟨hne, hgap⟩, ⟨hane, ha⟩, rfl, rfl⟩ :=
    (mem_ways_operandPattern _).mp h₄
  have hsolid : ∀ c ∈ [letter], isBlank c = false := by
    simpa using not_isBlank_of_isLetter hletter
  have hfirst : (∀ c ∈ after.head?, isBlank c = true) →
      words (lead ++ letter :: (gap ++ (address ++ after))) =
        [letter] :: address :: words after := by
    intro hafter
    rw [← words_gap_run hgap hane ha hafter]
    exact words_gap_run hlead (List.cons_ne_nil letter []) hsolid (isBlank_head?_append hne hgap _)
  rcases h₅ with hvalue | rfl
  · -- there is a second operand
    obtain ⟨gap, value, tail, ⟨hne, hgap⟩, ⟨hvne, hv⟩, rfl, rfl⟩ :=
      (mem_ways_operandPattern _).mp hvalue
    refine ⟨⟨letter, address, some value⟩, ?_, by simp [Shape.parts]⟩
    have hlast : words (gap ++ (value ++ tail)) = [value] := by
      rw [words_gap_run hgap hvne hv (fun c hc => htail c (List.mem_of_mem_head? hc)),
        words_blanks htail]
    rw [hfirst (isBlank_head?_append hne hgap _), hlast]
    exact ofWords?_of_isLetter hletter address (some value)
  · refine ⟨⟨letter, address, none⟩, ?_, by simp [Shape.parts]⟩
    rw [hfirst (fun c hc => htail c (List.mem_of_mem_head? hc)), words_blanks htail]
    exact ofWords?_of_isLetter hletter address none

/-- If a blank comes next, there is one before the next word. -/
theorem ne_nil_of_isBlank_head? {gap w rest : List Char} (hne : w ≠ [])
    (hw : ∀ c ∈ w, isBlank c = false)
    (h : ∀ c ∈ (gap ++ (w ++ rest)).head?, isBlank c = true) : gap ≠ [] := by
  rintro rfl
  obtain ⟨c, w, rfl⟩ := List.exists_cons_of_ne_nil hne
  have hblank : isBlank c = true := h c rfl
  rw [hw c (List.mem_cons_self ..)] at hblank
  cases hblank

/-- Where the words of a text have a shape there is a way to fit the pattern. -/
theorem exists_mem_ways {cs : List Char} {s : Shape} (hs : Shape.ofWords? (words cs) = some s) :
    ∃ t, t ∈ entryPattern.ways ⟨[], cs, []⟩ := by
  obtain ⟨letter, address, value⟩ := s
  obtain ⟨(hletter : isLetter letter = true), hwords⟩ := ofWords?_eq_some_iff.mp hs
  obtain ⟨lead, r, rfl, hlead, -, -, hr, hwords⟩ := exists_of_words_eq_cons hwords
  obtain ⟨gap, after, rfl, hgap, hane, ha, hafter, hwords⟩ := exists_of_words_eq_cons hwords
  have hne : gap ≠ [] := ne_nil_of_isBlank_head? hane ha hr
  have h₁ : ⟨[], lead ++ ([letter] ++ (gap ++ (address ++ after))), []⟩ ∈
      (Pattern.start (κ := Role)).ways _ := mem_ways_start.mpr ⟨rfl, rfl⟩
  have h₂ := mem_ways_of_seq h₁ (mem_ways_many.mpr ⟨lead, _, hlead, rfl, rfl⟩)
  have h₃ := mem_ways_of_seq h₂ ((mem_ways_named_one .letter).mpr ⟨letter, _, hletter, rfl, rfl⟩)
  have h₄ := mem_ways_of_seq h₃ ((mem_ways_operandPattern .address).mpr
    ⟨gap, address, after, ⟨hne, hgap⟩, ⟨hane, ha⟩, rfl, rfl⟩)
  cases value with
  | none =>
    have h₅ := mem_ways_of_seq h₄ ((mem_ways_optional (operandPattern .value)).mpr (.inr rfl))
    have htail := isBlank_of_words_eq_nil hwords
    exact ⟨_, mem_ways_of_seq h₅ (mem_ways_blanks_stop.mpr ⟨htail, rfl⟩)⟩
  | some value =>
    obtain ⟨gap, tail, rfl, hgap, hvne, hv, -, hwords⟩ := exists_of_words_eq_cons hwords
    have hne : gap ≠ [] := ne_nil_of_isBlank_head? hvne hv hafter
    have h₅ := mem_ways_of_seq h₄ ((mem_ways_optional _).mpr (.inl
      ((mem_ways_operandPattern .value).mpr ⟨gap, value, tail, ⟨hne, hgap⟩, ⟨hvne, hv⟩, rfl, rfl⟩)))
    have htail := isBlank_of_words_eq_nil hwords
    exact ⟨_, mem_ways_of_seq h₅ (mem_ways_blanks_stop.mpr ⟨htail, rfl⟩)⟩

/-- **What the pattern finds** in a text is the shape of its words. -/
theorem parts?_entryPattern (cs : List Char) :
    entryPattern.parts? cs = (Shape.ofWords? (words cs)).map Shape.parts := by
  have hstart : ∀ s, ∀ t ∈ entryPattern.ways s, s.behind = [] := by
    intro s t ht
    simp only [entryPattern, mem_ways_seq] at ht
    obtain ⟨_, ⟨_, ⟨_, ⟨_, ⟨_, h, -⟩, -⟩, -⟩, -⟩, -⟩ := ht
    exact (mem_ways_start.mp h).1
  rw [parts?_of_start hstart]
  cases hways : entryPattern.ways ⟨[], cs, []⟩ with
  | nil =>
    cases hs : Shape.ofWords? (words cs) with
    | none => rfl
    | some s =>
      obtain ⟨t, ht⟩ := exists_mem_ways hs
      rw [hways] at ht
      cases ht
  | cons t ts =>
    obtain ⟨s, hs, hparts⟩ := shape_of_mem_ways (hways ▸ List.mem_cons_self ..)
    rw [hs, List.head?_cons, Option.map_some, Option.map_some, hparts]

end Trace

/-! ## Operands -/

open Trace

namespace Access

open Text (trim)

/-- The number of an operand, or the complaint, which shows the whole word. -/
def number (line : Nat) (word : List Char) : Except TraceError UInt32 :=
  match Numeral.ofWord word with
  | .ok v => .ok v
  | .error cause => .error (.notANumber line (String.ofList word) cause)

theorem operand_eq_number (line : Nat) : operand line = number line := by
  funext word
  unfold operand number
  rw [Numeral.parse_eq_ofWord]
  cases Numeral.ofWord word with
  | error cause => rfl
  | ok v => rfl

/-- The words that are numbers. -/
theorem number_eq_ok_iff (line : Nat) (word : List Char) (v : UInt32) :
    number line word = .ok v ↔ Numeral.Accepts word v := by
  rw [← Numeral.parse_eq_ok_iff, Numeral.parse_eq_ofWord]
  unfold number
  cases Numeral.ofWord word with
  | error cause => simp
  | ok v => simp

/-! ## Reading a line by pattern -/

/-- The access in a line with these parts, if every part that is asked for is there. -/
def ofParts? (line : Nat) (text : String) (parts : List (Role × List Char)) :
    Option (Except TraceError (Option Access)) := do
  let address ← parts.lookup .address
  match number line address with
  | .error e => some (.error e)
  | .ok a =>
    match (parts.lookup .value).mapM (number line) with
    | .error e => some (.error e)
    | .ok v? =>
      let letter ← parts.lookup .letter
      match letter, v? with
      | ['r'], none | ['R'], none => some (.ok (some (.read a)))
      | ['w'], some v | ['W'], some v => some (.ok (some (.write a v)))
      | _, _ => some (.error (.notAnEntry line text))

/-- What a line says, by the pattern of an entry. -/
def ofPattern? (line : Nat) (text : String) : Option (Except TraceError (Option Access)) :=
  let trimmed := trim text.toList
  if trimmed = [] ∨ trimmed.head? = some '#' then
    some (.ok none)
  else
    match entryPattern.parts? trimmed with
    | none => some (.error (.notAnEntry line text))
    | some parts => ofParts? line text parts

/-- The parts of a shape are there when they are asked for. -/
theorem ofParts?_parts (line : Nat) (text : String) {s : Shape} (hs : isLetter s.letter = true) :
    ofParts? line text s.parts = some (s.read line text) := by
  obtain ⟨letter, address, value⟩ := s
  have haddress : (Shape.mk letter address value).parts.lookup .address = some address := rfl
  have hvalue : (Shape.mk letter address value).parts.lookup .value = value := by
    cases value <;> rfl
  have hletter : (Shape.mk letter address value).parts.lookup .letter = some [letter] := rfl
  rw [ofParts?, haddress, hvalue, hletter, Option.bind_eq_bind, Option.bind_some, Shape.read,
    ← operand_eq_number]
  cases operand line address with
  | error e => rfl
  | ok a =>
    cases value.mapM (operand line) with
    | error e => rfl
    | ok v? => rcases isLetter_iff.mp hs with (rfl | rfl) | rfl | rfl <;> cases v? <;> rfl

/-! ## Reading a line by its words -/

/-- The words for a read. -/
def readWords : List (List Char) := [['r'], ['R']]

/-- The words for a write. -/
def writeWords : List (List Char) := [['w'], ['W']]

/-- What a line with these words says. -/
def ofWords (line : Nat) (text : String) :
    List (List Char) → Except TraceError (Option Access)
  | [] => .ok none
  | first :: operands =>
    if first.head? = some '#' then
      .ok none
    else if first ∈ readWords ++ writeWords ∧ (operands.length = 1 ∨ operands.length = 2) then do
      match ← operands.mapM (number line) with
      | [a] =>
        if first ∈ readWords then .ok (some (.read a)) else .error (.notAnEntry line text)
      | [a, v] =>
        if first ∈ writeWords then .ok (some (.write a v)) else .error (.notAnEntry line text)
      | _ => .error (.notAnEntry line text)
    else
      .error (.notAnEntry line text)

theorem mem_readWords_append_iff {w : List Char} :
    w ∈ readWords ++ writeWords ↔ ∃ letter, w = [letter] ∧ isLetter letter = true := by
  simp only [readWords, writeWords, isLetter_iff, List.cons_append, List.nil_append,
    List.mem_cons, List.not_mem_nil, or_false]
  constructor
  · rintro (rfl | rfl | rfl | rfl) <;> simp
  · rintro ⟨letter, rfl, (rfl | rfl) | rfl | rfl⟩ <;> simp

theorem exists_operands_iff {operands : List (List Char)} :
    (operands.length = 1 ∨ operands.length = 2) ↔
      ∃ address, ∃ value : Option (List Char), operands = address :: value.toList := by
  rw [List.length_eq_one_iff, List.length_eq_two]
  constructor
  · rintro (⟨address, rfl⟩ | ⟨address, value, rfl⟩)
    · exact ⟨address, none, rfl⟩
    · exact ⟨address, some value, rfl⟩
  · rintro ⟨address, _ | value, rfl⟩
    · exact .inl ⟨address, rfl⟩
    · exact .inr ⟨address, value, rfl⟩

/-- Operands are read from left to right. -/
theorem mapM_operands (line : Nat) (address : List Char) (value : Option (List Char)) :
    (address :: value.toList).mapM (operand line) = do
      let a ← operand line address
      let v? ← value.mapM (operand line)
      return a :: v?.toList := by
  cases value <;> simp

/-- What the words of a line say is told by their shape. -/
theorem ofWords_eq (line : Nat) (text : String) (ws : List (List Char)) :
    ofWords line text ws =
      if isSilent ws then .ok none
      else match Shape.ofWords? ws with
        | none => .error (.notAnEntry line text)
        | some s => s.read line text := by
  rcases ws with _ | ⟨first, operands⟩
  · rfl
  have hhead : isSilent (first :: operands) = true ↔ first.head? = some '#' := beq_iff_eq
  simp only [ofWords, hhead, ← operand_eq_number]
  congr 1
  cases hs : Shape.ofWords? (first :: operands) with
  | none =>
    refine if_neg ?_
    rintro ⟨hfirst, hlength⟩
    obtain ⟨letter, rfl, hletter⟩ := mem_readWords_append_iff.mp hfirst
    obtain ⟨address, value, rfl⟩ := exists_operands_iff.mp hlength
    rw [ofWords?_of_isLetter hletter] at hs
    cases hs
  | some s =>
    obtain ⟨letter, address, value⟩ := s
    obtain ⟨(hletter : isLetter letter = true), hws⟩ := ofWords?_eq_some_iff.mp hs
    cases hws
    have hshape := And.intro (mem_readWords_append_iff.mpr ⟨letter, rfl, hletter⟩)
      (exists_operands_iff.mpr ⟨address, value, rfl⟩)
    rw [if_pos hshape]
    show _ = Shape.read line text ⟨letter, address, value⟩
    rw [mapM_operands, Shape.read]
    cases operand line address with
    | error e => rfl
    | ok a =>
      cases value.mapM (operand line) with
      | error e => rfl
      | ok v? => rcases isLetter_iff.mp hletter with (rfl | rfl) | rfl | rfl <;> cases v? <;> rfl

/-- **Three accounts of a line.**  The reader of lines says what the words of the line say, of which
those are numbers that are accepted as such.  It also says what the pattern of an entry finds, which
has every part that is asked for. -/
theorem ofLine_eq_ofWords (line : Nat) (text : String) :
    ofLine line text = ofWords line text (words text.toList) ∧
      (∀ word v, number line word = .ok v ↔ Numeral.Accepts word v) ∧
      ofPattern? line text = some (ofLine line text) := by
  have hofLine := ofLine_eq line text
  refine ⟨hofLine.trans (ofWords_eq line text _).symm, number_eq_ok_iff line, ?_⟩
  have hsilent := isSilent_words (Text.flush_trim text.toList)
  rw [Text.words_trim] at hsilent
  rw [hofLine]
  simp only [ofPattern?, ← hsilent, parts?_entryPattern, Text.words_trim]
  split
  · rfl
  · cases hs : Shape.ofWords? (words text.toList) with
    | none => rfl
    | some s => exact ofParts?_parts line text (ofWords?_eq_some_iff.mp hs).1

-- The operand that is no number is reported, not the one that is missing.
example : ofLine 3 "W 0xzz" = .error (.notANumber 3 "0xzz" .invalidDigit) := by decide

end Access

end SetAssoc

import SetAssoc.Json.Writer
import SetAssoc.Proofs.Grammar
import SetAssoc.Proofs.Values
/-!
# What is written is JSON

A record is written without white space or with a line for each member, and both are texts for the
same value (`writtenAs_compact`, `writtenAs_pretty`).  The two differ in nothing but white space, so
one lemma about all such layouts does for both (`spells_members`).
-/

namespace SetAssoc.Json

open Value (memberTokens named)

/-! ## Texts between quotes -/

theorem meaning?_unit {c : Char} (hc : c.toNat < 0xd800) (ps : List Piece) :
    meaning? (.unit c.toNat :: ps) = (meaning? ps).map (c :: ·) := by
  have hhigh : ¬ IsHigh c.toNat := fun h => absurd h.1 (Nat.not_le.mpr hc)
  have hlow : ¬ IsLow c.toNat := fun h => absurd (Nat.le_trans (by decide) h.1) (Nat.not_le.mpr hc)
  rw [meaning?.eq_def]
  dsimp only
  rw [if_neg hhigh, if_neg hlow, Char.ofNat_toNat]

/-- **A character between quotes** is a piece that stands for it. -/
theorem exists_written_escape (c : Char) :
    ∃ p : Piece, p.Written (escape c) ∧ ∀ ps, meaning? (p :: ps) = (meaning? ps).map (c :: ·) := by
  have hletter {l : Char} (h : (l, c) ∈ letters) :
      ∃ p : Piece, p.Written ['\\', l] ∧ ∀ ps, meaning? (p :: ps) = (meaning? ps).map (c :: ·) :=
    ⟨.escaped c, .escaped h, fun _ => rfl⟩
  unfold escape
  split
  iterate 7
    · exact hletter (by decide)
  · next hquote hslash _ _ _ _ _ =>
    split
    · next hcontrol =>
      -- four digits, of which the first two are zero
      refine ⟨.unit c.toNat, ?_, meaning?_unit (by omega)⟩
      have hvalue : c.toNat = Numeral.value [0, 0, c.toNat / 16, c.toNat % 16] := by
        simp only [Numeral.value_cons, Numeral.value_nil, List.length_cons, List.length_nil]
        omega
      have hdigit (d : Nat) (hd : d < 16) : Numeral.Writes (hexChar d) d := ⟨hd, .inl rfl⟩
      have hdigits : List.Forall₂ Numeral.Writes
          ['0', '0', hexChar (c.toNat / 16), hexChar (c.toNat % 16)]
          [0, 0, c.toNat / 16, c.toNat % 16] :=
        .cons (hdigit 0 (by decide)) (.cons (hdigit 0 (by decide))
          (.cons (hdigit _ (by omega)) (.cons (hdigit _ (by omega)) .nil)))
      have hwritten := Piece.Written.unit rfl hdigits
      rwa [← hvalue] at hwritten
    · next hcontrol =>
      exact ⟨.plain c, .plain (Nat.le_of_not_lt hcontrol) hquote hslash, fun _ => rfl⟩

theorem exists_written_flatMap (cs : List Char) :
    ∃ ps, PiecesWritten ps (cs.flatMap escape) ∧ meaning? ps = some cs := by
  induction cs with
  | nil => exact ⟨[], .nil, rfl⟩
  | cons c cs ih =>
    obtain ⟨p, hp, hmeaning⟩ := exists_written_escape c
    obtain ⟨ps, hps, hrest⟩ := ih
    refine ⟨p :: ps, .cons hp hps, ?_⟩
    rw [hmeaning, hrest]
    rfl

/-- **A text between quotes** stands for itself. -/
theorem written_quoted (s : String) : (Token.text (some s)).Written (quoted s) := by
  obtain ⟨ps, hps, hmeaning⟩ := exists_written_flatMap s.toList
  have htext : some s = (meaning? ps).map String.ofList := by
    rw [hmeaning, Option.map_some, String.ofList_toList]
  rw [htext]
  exact .text hps

/-! ## Values -/

/-- The value that a scalar is written for. -/
def Scalar.toValue : Scalar → Value
  | .text s => .text (some s)
  | .count n => .number (.ofNat n.toNat)

theorem Numeral.written_toDigits (n : Nat) : (Numeral.ofNat n).Written (Nat.toDigits 10 n) := by
  obtain ⟨hdigits, -, hzero⟩ := ofNat_whole n
  have hparts : (ofNat n).Written ([] ++ (Nat.toDigits 10 n ++ ([] ++ []))) :=
    .parts hdigits hzero .none .none
  simpa using hparts

theorem written_number (n : Nat) : (Token.number (.ofNat n)).Written (Nat.toDigits 10 n) :=
  .number (Numeral.written_toDigits n)

/-- White space may be left out. -/
theorem space_nil : Space [] := fun _ hc => absurd hc List.not_mem_nil

theorem space_singleton : Space [' '] := fun _ hc => .inl (List.mem_singleton.mp hc)

theorem Spells.token {t : Token} {ts : List Token} {cs rest : List Char} (ht : t.Written cs)
    (h : Spells ts rest) : Spells (t :: ts) (cs ++ rest) :=
  .cons space_nil ht h

/-- More white space in front. -/
theorem Spells.space {ts : List Token} {bs cs : List Char} (hbs : Space bs) (h : Spells ts cs) :
    Spells ts (bs ++ cs) := by
  cases h with
  | nil hcs => exact .nil fun c hc => (List.mem_append.mp hc).elim (hbs c) (hcs c)
  | cons hbs' ht hrest =>
    rw [← List.append_assoc]
    exact .cons (fun c hc => (List.mem_append.mp hc).elim (hbs c) (hbs' c)) ht hrest

theorem Spells.scalar (s : Scalar) {ts : List Token} {rest : List Char} (h : Spells ts rest) :
    Spells (s.toValue.tokens ++ ts) (s.render ++ rest) := by
  cases s with
  | text s => exact .token (written_quoted s) h
  | count n => exact .token (written_number n.toNat) h

/-! ## Records -/

/-- The members of a record as values. -/
def valueMembers (members : List (String × Scalar)) : List (String × Value) :=
  members.map fun m => (m.1, m.2.toValue)

theorem Spells.member {gap : List Char} (hgap : Space gap) (m : String × Scalar)
    {ts : List Token} {rest : List Char} (h : Spells ts rest) :
    Spells (.text (some m.1) :: .colon :: (m.2.toValue.tokens ++ ts)) (member gap m ++ rest) := by
  have hvalue : Spells (.colon :: (m.2.toValue.tokens ++ ts))
      (':' :: (gap ++ (m.2.render ++ rest))) := .token .colon (.space hgap (.scalar m.2 h))
  have htext := Spells.token (written_quoted m.1) hvalue
  simpa [Json.member] using htext

/-- **The members of an object**, each behind some white space, with commas between them. -/
theorem spells_members {line gap close : List Char} (hline : Space line) (hgap : Space gap)
    (hclose : Space close) (members : List (String × Scalar)) :
    Spells (memberTokens [] (named (valueMembers members)))
      (((members.map fun m => line ++ member gap m).intersperse [',']).flatten ++
        (close ++ ['\x7d'])) := by
  have hend : Spells [.closeObject] (close ++ ['\x7d']) :=
    .space hclose (.token .closeObject (.nil space_nil))
  induction members with
  | nil => exact hend
  | cons m members ih =>
    cases members with
    | nil =>
      show Spells (.text (some m.1) :: .colon :: (m.2.toValue.tokens ++ [.closeObject])) _
      have hlast := Spells.space hline (Spells.member hgap m hend)
      simpa using hlast
    | cons m' members =>
      show Spells (.text (some m.1) :: .colon :: (m.2.toValue.tokens ++
        .comma :: memberTokens [] (named (valueMembers (m' :: members))))) _
      have hmore := Spells.space hline (Spells.member hgap m (Spells.token .comma ih))
      simpa using hmore

theorem writtenAs_of_layout {line gap close : List Char} (hline : Space line) (hgap : Space gap)
    (hclose : Space close) (members : List (String × Scalar)) :
    (Value.record (valueMembers members)).WrittenAs (String.ofList
      ('\x7b' :: ((members.map fun m => line ++ member gap m).intersperse [',']).flatten ++
        (close ++ ['\x7d']))) := by
  unfold Value.WrittenAs
  rw [String.toList_ofList]
  have hopen := Spells.token .openObject (spells_members hline hgap hclose members)
  rwa [List.singleton_append, ← List.cons_append] at hopen

/-- **A record without white space** is a text for its members. -/
theorem writtenAs_compact (members : List (String × Scalar)) :
    (Value.record (valueMembers members)).WrittenAs (compact members) :=
  writtenAs_of_layout space_nil space_nil space_nil members

/-- **A record with a line for each member** is a text for its members. -/
theorem writtenAs_pretty (members : List (String × Scalar)) :
    (Value.record (valueMembers members)).WrittenAs (pretty members) :=
  writtenAs_of_layout (by simp [Space] : Space ['\n', ' ', ' ']) space_singleton
    (by simp [Space] : Space ['\n']) members

end SetAssoc.Json

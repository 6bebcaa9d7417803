import SetAssoc.Proofs.Lines
import Mathlib
/-!
# Renderings of a trace

A list of accesses can be written down in many ways: the letters and digits may be small or capital,
numbers may have zeros and a mark before them, white space may be of any kind and length, and blank
lines and comments may stand anywhere.  Every one of these texts is read back as the same accesses.
-/

namespace SetAssoc.Trace

open Text (isBlank words)

/-! ## Text as bytes -/

/-- The bytes of a text. -/
def encode (cs : List Char) : List UInt8 := cs.flatMap String.utf8EncodeChar

@[simp] theorem encode_append (xs ys : List Char) : encode (xs ++ ys) = encode xs ++ encode ys :=
  List.flatMap_append

theorem encode_toList (text : String) : encode text.toList = text.toUTF8.data.toList := by
  have hbytes : text.toByteArray = text.toList.utf8Encode := by
    rw [← String.toByteArray_ofList, String.ofList_toList]
  rw [String.toUTF8_eq_toByteArray, hbytes, List.utf8Encode, List.data_toByteArray, encode]

@[simp] theorem decodeLine_encode (cs : List Char) :
    decodeLine (encode cs) = some (String.ofList cs) := by
  have hbytes : (⟨(encode cs).toArray⟩ : ByteArray) = (String.ofList cs).toByteArray := by
    apply ByteArray.ext
    rw [String.toByteArray_ofList, List.utf8Encode, List.data_toByteArray, encode]
  rw [decodeLine, hbytes, String.fromUTF8?, dif_pos (String.ofList cs).isValidUTF8]
  rfl

/-- A byte below 128 is a character of its own and no part of another one. -/
theorem toNat_eq_of_mem_utf8EncodeChar {c : Char} {b : UInt8} (hb : b.toNat < 128)
    (h : b ∈ String.utf8EncodeChar c) : c.toNat = b.toNat := by
  have hbyte (n : Nat) : (UInt8.ofNat n).toNat = n % 256 := UInt8.toNat_ofNat'
  simp only [String.utf8EncodeChar] at h
  split at h
  · obtain rfl := List.mem_singleton.mp h
    rw [hbyte]
    show c.val.toNat = _
    omega
  -- the other bytes have their highest bit set
  · split at h
    · simp only [List.mem_cons, List.not_mem_nil, or_false] at h
      rcases h with rfl | rfl <;> rw [hbyte] at hb <;> omega
    · split at h
      · simp only [List.mem_cons, List.not_mem_nil, or_false] at h
        rcases h with rfl | rfl | rfl <;> rw [hbyte] at hb <;> omega
      · simp only [List.mem_cons, List.not_mem_nil, or_false] at h
        rcases h with rfl | rfl | rfl | rfl <;> rw [hbyte] at hb <;> omega

theorem lineFeed_notMem_encode {cs : List Char} (h : '\n' ∉ cs) : lineFeed ∉ encode cs := by
  intro hmem
  obtain ⟨c, hc, hbyte⟩ := List.mem_flatMap.mp hmem
  have hcode : c.toNat = '\n'.toNat := toNat_eq_of_mem_utf8EncodeChar (by decide) hbyte
  obtain rfl : c = '\n' := Char.toNat_inj.mp hcode
  exact h hc

theorem eq_concat_of_getLast?_encode {cs : List Char}
    (h : (encode cs).getLast? = some carriageReturn) : ∃ front, cs = front ++ ['\r'] := by
  rcases List.eq_nil_or_concat' cs with rfl | ⟨front, c, rfl⟩
  · cases h
  · have hlast : carriageReturn ∈ String.utf8EncodeChar c := by
      have hne : String.utf8EncodeChar c ≠ [] := by simp
      rw [encode_append, encode, encode, List.flatMap_singleton,
        List.getLast?_append_of_ne_nil _ hne] at h
      exact List.mem_of_getLast? h
    have hcode : c.toNat = '\r'.toNat := toNat_eq_of_mem_utf8EncodeChar (by decide) hlast
    obtain rfl : c = '\r' := Char.toNat_inj.mp hcode
    exact ⟨front, rfl⟩

/-- A carriage return is dropped with the end of a line, even if it was meant for white space of
the line.  The words are the same. -/
theorem dropEnd_encode (cs : List Char) :
    ∃ cs', dropEnd (encode cs ++ [lineFeed]) = encode cs' ∧ words cs' = words cs := by
  rw [dropEnd, if_pos (by simp), List.dropLast_concat]
  dsimp only
  split
  · -- the last character is a carriage return, which is a blank
    next h =>
    obtain ⟨front, rfl⟩ := eq_concat_of_getLast?_encode h
    refine ⟨front, ?_, ?_⟩
    · rw [encode_append]
      exact List.dropLast_concat ..
    · rw [Text.words_append_cons front [] (by decide), Text.words_nil, List.append_nil]
  · exact ⟨cs, rfl, rfl⟩

theorem dropEnd_of_lineFeed_notMem {line : List UInt8} (h : lineFeed ∉ line) :
    dropEnd line = line :=
  if_neg fun hlast => h (List.mem_of_getLast? hlast)

/-! ## Lines as they may be written -/

/-- White space within a line. -/
def Gap (bs : List Char) : Prop := ∀ b ∈ bs, isBlank b = true ∧ b ≠ '\n'

/-- The characters of a word. -/
def Solid (w : List Char) : Prop := w ≠ [] ∧ ∀ c ∈ w, isBlank c = false

/-- A line without its end, and the access that it is written for, if any. -/
inductive Written : Option Access → List Char → Prop
  /-- Nothing but white space. -/
  | blank {bs : List Char} (hbs : Gap bs) : Written none bs
  /-- A comment, which says whatever it likes. -/
  | comment {bs cs : List Char} (hbs : Gap bs) (hcs : '\n' ∉ cs) : Written none (bs ++ '#' :: cs)
  /-- A letter and an address. -/
  | read {before gap after address : List Char} {letter : Char} {a : UInt32}
      (hbefore : Gap before) (hletter : letter = 'r' ∨ letter = 'R')
      (hgap : Gap gap) (hne : gap ≠ []) (haddress : Numeral.Spells [] address a)
      (hafter : Gap after) :
      Written (some (.read a)) (before ++ letter :: (gap ++ (address ++ after)))
  /-- A letter, an address and a value. -/
  | write {before gap gap' after address value : List Char} {letter : Char} {a v : UInt32}
      (hbefore : Gap before) (hletter : letter = 'w' ∨ letter = 'W')
      (hgap : Gap gap) (hne : gap ≠ []) (haddress : Numeral.Spells [] address a)
      (hgap' : Gap gap') (hne' : gap' ≠ []) (hvalue : Numeral.Spells [] value v)
      (hafter : Gap after) :
      Written (some (.write a v))
        (before ++ letter :: (gap ++ (address ++ (gap' ++ (value ++ after)))))

variable {op? : Option Access} {ops : List Access} {cs : List Char}

theorem Gap.isBlank {bs : List Char} (h : Gap bs) : ∀ b ∈ bs, isBlank b = true :=
  fun b hb => (h b hb).1

theorem Gap.lineFeed_notMem {bs : List Char} (h : Gap bs) : '\n' ∉ bs :=
  fun hmem => (h _ hmem).2 rfl

theorem Solid.lineFeed_notMem {w : List Char} (h : Solid w) : '\n' ∉ w :=
  fun hmem => absurd (h.2 _ hmem) (by decide)

theorem solid_letter {letter : Char} (h : isBlank letter = false) : Solid [letter] :=
  ⟨by simp, by simpa using h⟩

theorem solid_of_spells {text : List Char} {v : UInt32} (h : Numeral.Spells [] text v) :
    Solid text := by
  obtain ⟨mark, hmark, cs, rfl, hcs⟩ := h
  refine ⟨by simp [hcs.1], ?_⟩
  intro c hc
  rcases List.mem_append.mp hc with hc | hc
  · have hmarks : Numeral.marks.flatten.all (!isBlank ·) = true := by decide
    have hsolid := List.all_eq_true.mp hmarks c (List.mem_flatten.mpr ⟨mark, hmark, hc⟩)
    simpa using hsolid
  · obtain ⟨d, hd⟩ := hcs.exists_writes hc
    exact hd.not_isBlank

/-- A word is cut off by the white space behind it. -/
theorem words_solid_gap {w gap : List Char} (hw : Solid w) (hgap : Gap gap) (hne : gap ≠ [])
    (cs : List Char) : words (w ++ (gap ++ cs)) = w :: words cs := by
  have hends : ∀ c ∈ (gap ++ cs).head?, isBlank c = true := by
    obtain ⟨b, gap, rfl⟩ := List.exists_cons_of_ne_nil hne
    rintro _ ⟨⟩
    exact hgap.isBlank b (List.mem_cons_self ..)
  rw [Text.words_run_append hw.1 hw.2 hends, Text.words_blanks_append hgap.isBlank]

theorem words_solid_last {w after : List Char} (hw : Solid w) (hafter : Gap after) :
    words (w ++ after) = [w] := by
  have hends : ∀ c ∈ after.head?, isBlank c = true := fun c hc =>
    hafter.isBlank c (List.mem_of_mem_head? hc)
  rw [Text.words_run_append hw.1 hw.2 hends, Text.words_blanks hafter.isBlank]

theorem isSilent_words_comment (cs : List Char) : isSilent (words ('#' :: cs)) = true := by
  have hflush : Flush ('#' :: cs) := by
    rintro _ ⟨⟩
    decide
  exact (isSilent_words hflush).mpr (.inr rfl)

/-- **A line says** the access that it is written for. -/
theorem Written.says (h : Written op? cs) : Says (words cs) op? := by
  cases h with
  | blank hbs => rw [Text.words_blanks hbs.isBlank]; rfl
  | comment hbs _ =>
    rw [Text.words_blanks_append hbs.isBlank]
    exact isSilent_words_comment _
  | @read before gap after address letter a hbefore hletter hgap hne haddress hafter =>
    have hsolid : Solid [letter] := solid_letter (by rcases hletter with rfl | rfl <;> decide)
    have hwords : words (before ++ letter :: (gap ++ (address ++ after))) =
        [[letter], address] := by
      calc words (before ++ letter :: (gap ++ (address ++ after)))
          = words ([letter] ++ (gap ++ (address ++ after))) :=
            Text.words_blanks_append hbefore.isBlank _
        _ = [letter] :: words (address ++ after) := words_solid_gap hsolid hgap hne _
        _ = [[letter], address] := by rw [words_solid_last (solid_of_spells haddress) hafter]
    rw [hwords]
    exact .read hletter (.inl haddress)
  | @write before gap gap' after address value letter a v hbefore hletter hgap hne haddress hgap'
      hne' hvalue hafter =>
    have hsolid : Solid [letter] := solid_letter (by rcases hletter with rfl | rfl <;> decide)
    have hwords : words (before ++ letter :: (gap ++ (address ++ (gap' ++ (value ++ after))))) =
        [[letter], address, value] := by
      calc words (before ++ letter :: (gap ++ (address ++ (gap' ++ (value ++ after)))))
          = words ([letter] ++ (gap ++ (address ++ (gap' ++ (value ++ after))))) :=
            Text.words_blanks_append hbefore.isBlank _
        _ = [letter] :: words (address ++ (gap' ++ (value ++ after))) :=
            words_solid_gap hsolid hgap hne _
        _ = [letter] :: address :: words (value ++ after) := by
            rw [words_solid_gap (solid_of_spells haddress) hgap' hne']
        _ = [[letter], address, value] := by rw [words_solid_last (solid_of_spells hvalue) hafter]
    rw [hwords]
    exact .write hletter (.inl haddress) (.inl hvalue)

/-- It is a single line. -/
theorem Written.lineFeed_notMem (h : Written op? cs) : '\n' ∉ cs := by
  cases h with
  | blank hbs => exact hbs.lineFeed_notMem
  | comment hbs hcs => simp [hbs.lineFeed_notMem, hcs]
  | read hbefore hletter hgap _ haddress hafter =>
    have haddress := (solid_of_spells haddress).lineFeed_notMem
    rcases hletter with rfl | rfl <;>
      simp [hbefore.lineFeed_notMem, hgap.lineFeed_notMem, haddress, hafter.lineFeed_notMem]
  | write hbefore hletter hgap _ haddress hgap' _ hvalue hafter =>
    have haddress := (solid_of_spells haddress).lineFeed_notMem
    have hvalue := (solid_of_spells hvalue).lineFeed_notMem
    rcases hletter with rfl | rfl <;>
      simp [hbefore.lineFeed_notMem, hgap.lineFeed_notMem, haddress, hgap'.lineFeed_notMem, hvalue,
        hafter.lineFeed_notMem]

/-! ## Traces as they may be written -/

/-- A text that is written for a list of accesses, line by line.  The last line may lack its end. -/
inductive Renders : List Access → List Char → Prop
  /-- The last line. -/
  | last {op? : Option Access} {cs : List Char} (hline : Written op? cs) : Renders op?.toList cs
  /-- A line with its end, and more lines. -/
  | line {op? : Option Access} {ops : List Access} {cs eol rest : List Char}
      (hline : Written op? cs) (heol : eol = ['\n'] ∨ eol = ['\r', '\n'])
      (hrest : Renders ops rest) : Renders (op?.toList ++ ops) (cs ++ (eol ++ rest))

theorem said_encode (n : Nat) (h : Says (words cs) op?) : said n (encode cs) = .ok op? := by
  refine said_eq_ok_iff.mpr ⟨String.ofList cs, decodeLine_encode cs, ?_⟩
  rwa [String.toList_ofList]

theorem items_last (n : Nat) (hcs : '\n' ∉ cs) (h : Says (words cs) op?) :
    itemsFrom n ((rawLines (encode cs)).map dropEnd) = op?.toList.map .ok := by
  have hlf := lineFeed_notMem_encode hcs
  cases cs with
  | nil =>
    -- behind the end of the last line there is no line
    cases op? with
    | none => rfl
    | some op => cases h
  | cons c cs =>
    have hne : encode (c :: cs) ≠ [] := by simp [encode]
    rw [rawLines_last hlf hne, List.map_singleton, dropEnd_of_lineFeed_notMem hlf,
      itemsFrom_cons_of_ok (said_encode _ h)]
    simp [itemsFrom]

theorem items_line (n : Nat) (hcs : '\n' ∉ cs) (h : Says (words cs) op?) (rest : List Char) :
    itemsFrom n ((rawLines (encode (cs ++ '\n' :: rest))).map dropEnd) =
      op?.toList.map .ok ++ itemsFrom (n + 1) ((rawLines (encode rest)).map dropEnd) := by
  have hbytes : encode (cs ++ '\n' :: rest) = encode cs ++ lineFeed :: encode rest :=
    encode_append cs _
  obtain ⟨cs', hdrop, hwords⟩ := dropEnd_encode cs
  rw [hbytes, rawLines_cons (lineFeed_notMem_encode hcs), List.map_cons, hdrop]
  exact itemsFrom_cons_of_ok (said_encode _ (hwords ▸ h)) _

theorem Renders.itemsFrom_eq (h : Renders ops cs) (n : Nat) :
    itemsFrom n ((rawLines (encode cs)).map dropEnd) = ops.map .ok := by
  induction h generalizing n with
  | last hline => exact items_last n hline.lineFeed_notMem hline.says
  | @line op? ops cs eol rest hline heol _ ih =>
    rw [List.map_append, ← ih (n + 1)]
    rcases heol with rfl | rfl
    · exact items_line n hline.lineFeed_notMem hline.says rest
    · -- the carriage return is one more blank of the line
      have hsays : Says (words (cs ++ ['\r'])) op? := by
        rw [Text.words_append_cons cs [] (by decide), Text.words_nil, List.append_nil]
        exact hline.says
      have hmem : '\n' ∉ cs ++ ['\r'] := by simp [hline.lineFeed_notMem]
      rw [← items_line n hmem hsays rest, List.append_assoc]
      rfl

/-- **Every rendering of a trace is read back as the trace**, in whatever windows it comes. -/
theorem items_of_renders {text : String} (h : Renders ops text.toList) {ws : Windows}
    (hws : ws.flatten = text.toUTF8.data.toList) : items ws = ops.map .ok := by
  rw [items, lines_eq, hws, ← encode_toList]
  exact h.itemsFrom_eq 0

/-- The windows may part a carriage return from its line feed, and a blank from itself. -/
theorem items_of_renders_read_write :
    Renders [.read 4, .write 8 255] "r 4\r\n#\nW\u00a00x8 0Ff".toList ∧
      items [[0x72, 0x20, 0x34, 0x0d], [0x0a, 0x23, 0x0a, 0x57, 0xc2],
          [0xa0, 0x30, 0x78, 0x38, 0x20, 0x30, 0x46, 0x66]] =
        [.ok (.read 4), .ok (.write 8 255)] := by
  have hfour : Numeral.Spells [] ['4'] 4 :=
    ⟨[], by decide, ['4'], rfl, by decide, [4], by simp [Numeral.Writes], rfl⟩
  have height : Numeral.Spells [] ['0', 'x', '8'] 8 :=
    ⟨['0', 'x'], by decide, ['8'], rfl, by decide, [8], by simp [Numeral.Writes], rfl⟩
  have hfull : Numeral.Spells [] ['0', 'F', 'f'] 255 :=
    ⟨[], by decide, ['0', 'F', 'f'], rfl, by decide, [0, 15, 15],
      by simp [Numeral.Writes]; decide, rfl⟩
  have hnone : Gap [] := by simp [Gap]
  have hgap (b : Char) (hb : isBlank b = true ∧ b ≠ '\n') : Gap [b] := by simpa [Gap] using hb
  have hread : Written (some (.read 4)) ['r', ' ', '4'] :=
    .read hnone (.inl rfl) (hgap ' ' (by decide)) (by simp) hfour hnone
  have hcomment : Written none ['#'] := .comment hnone (by simp)
  have hwrite : Written (some (.write 8 255)) ['W', '\u00a0', '0', 'x', '8', ' ', '0', 'F', 'f'] :=
    .write hnone (.inr rfl) (hgap '\u00a0' (by decide)) (by simp) height (hgap ' ' (by decide))
      (by simp) hfull hnone
  have htext : Renders [.read 4, .write 8 255] "r 4\r\n#\nW\u00a00x8 0Ff".toList :=
    .line hread (.inr rfl) (.line hcomment (.inl rfl) (.last hwrite))
  exact ⟨htext, items_of_renders htext rfl⟩

end SetAssoc.Trace

import SetAssoc.Proofs.Entries
import SetAssoc.Trace.Lines
import Mathlib
/-!
# The lines of a trace

A trace is cut behind every line feed, whatever windows it comes in (`lines_eq`).  The lines are
read in turn, each under a number that its complaint shows.  That number is not the place of the
line.  It counts the lines that are text, so it falls behind by one for every line before it that is
not UTF-8 (`itemsFrom_eq_itemsBy`).
-/

namespace SetAssoc.Trace

/-! ## Lines with their ends -/

/-- The lines of a trace, each with its end: the bytes are cut behind every line feed. -/
def rawLines (bytes : List UInt8) : List (List UInt8) := bytes.splitBy fun b _ => b != lineFeed

@[simp] theorem rawLines_nil : rawLines [] = [] := rfl

/-- Nothing is lost by cutting. -/
@[simp] theorem flatten_rawLines (bytes : List UInt8) : (rawLines bytes).flatten = bytes :=
  List.flatten_splitBy _ _

/-- Bytes may be cut where a line feed stands. -/
theorem rawLines_append {line : List UInt8} (h : line.getLast? = some lineFeed)
    (rest : List UInt8) : rawLines (line ++ rest) = rawLines line ++ rawLines rest := by
  apply List.splitBy_append
  intro b hb c hc
  obtain rfl : lineFeed = b := Option.some.inj (h.symm.trans hb)
  rfl

theorem isChain_of_lineFeed_notMem {body : List UInt8} (h : lineFeed ∉ body) (b : UInt8) :
    (body ++ [b]).IsChain fun x _ => (x != lineFeed) = true := by
  induction body with
  | nil => exact .singleton b
  | cons c body ih =>
    rw [List.cons_append, List.isChain_cons]
    refine ⟨?_, ih fun hmem => h (List.mem_cons_of_mem c hmem)⟩
    intro x _
    have hc : c ≠ lineFeed := fun hc => h (by simp [hc])
    simpa using hc

/-- They are cut nowhere else. -/
theorem rawLines_of_lineFeed_notMem {body : List UInt8} (h : lineFeed ∉ body) (b : UInt8) :
    rawLines (body ++ [b]) = [body ++ [b]] :=
  List.splitBy_of_isChain (by simp) (isChain_of_lineFeed_notMem h b)

/-- **The first line** goes up to the first line feed. -/
theorem rawLines_cons {body : List UInt8} (h : lineFeed ∉ body) (rest : List UInt8) :
    rawLines (body ++ lineFeed :: rest) = (body ++ [lineFeed]) :: rawLines rest := by
  have hcut : rawLines (body ++ [lineFeed] ++ rest) = _ := rawLines_append (by simp) rest
  rw [rawLines_of_lineFeed_notMem h, List.append_assoc] at hcut
  exact hcut

/-- **The last line** may have no end. -/
theorem rawLines_last {body : List UInt8} (h : lineFeed ∉ body) (hne : body ≠ []) :
    rawLines body = [body] := by
  obtain ⟨front, b, rfl⟩ := (List.eq_nil_or_concat' body).resolve_left hne
  exact rawLines_of_lineFeed_notMem (fun hmem => h (List.mem_append_left _ hmem)) b

/-- **Any line** that ends at its first line feed, or with the bytes, is the first one. -/
theorem rawLines_cut {line rest : List UInt8} (hne : line ≠ [])
    (h : ∃ body, lineFeed ∉ body ∧ (line = body ++ [lineFeed] ∨ line = body ∧ rest = [])) :
    rawLines (line ++ rest) = line :: rawLines rest := by
  obtain ⟨body, hbody, rfl | ⟨rfl, rfl⟩⟩ := h
  · rw [List.append_assoc]
    exact rawLines_cons hbody rest
  · rw [List.append_nil, rawLines_nil]
    exact rawLines_last hbody hne

/-- The first so many lines of a trace are a trace of their own. -/
theorem rawLines_take (bytes : List UInt8) (n : Nat) :
    rawLines ((rawLines bytes).take n).flatten = (rawLines bytes).take n := by
  refine List.splitBy_flatten ?_ ?_ ?_
  · exact fun hmem => List.nil_notMem_splitBy _ _ (List.mem_of_mem_take hmem)
  · exact fun line hline => List.isChain_of_mem_splitBy (List.mem_of_mem_take hline)
  · exact (List.isChain_getLast_head_splitBy (fun b _ => b != lineFeed) bytes).take n

/-! ## Lines from windows -/

/-- Reading goes through the first line feed, or to the end of the bytes if there is none. -/
theorem readThrough_cases (ws : Windows) :
    ∃ body, lineFeed ∉ body ∧
      ((readThrough ws).1 = body ++ [lineFeed] ∨
        (readThrough ws).1 = body ∧ (readThrough ws).2.flatten = []) := by
  induction ws with
  | nil => exact ⟨[], by simp, .inr ⟨rfl, rfl⟩⟩
  | cons w ws ih =>
    have hbefore : lineFeed ∉ w.takeWhile (· != lineFeed) := by
      intro hmem
      simpa using List.mem_takeWhile_imp hmem
    unfold readThrough
    split
    · -- the line ends in this window
      next lf back h =>
      have hlf : lf = lineFeed := by
        have hhead := List.head?_dropWhile_not (· != lineFeed) w
        rw [h] at hhead
        simpa using hhead
      exact ⟨_, hbefore, .inl (by rw [hlf])⟩
    · -- the line takes in the whole window and goes on
      next h =>
      have hw : lineFeed ∉ w := by
        have hall := List.takeWhile_append_dropWhile (p := (· != lineFeed)) (l := w)
        rw [h, List.append_nil] at hall
        rwa [hall] at hbefore
      rcases ih with ⟨body, hbody, hread | ⟨hread, hrest⟩⟩
      · refine ⟨w ++ body, by simp [hw, hbody], .inl ?_⟩
        simp [hread]
      · refine ⟨w ++ body, by simp [hw, hbody], .inr ⟨?_, hrest⟩⟩
        simp [hread]

theorem rawLines_readThrough {ws : Windows} (hne : (readThrough ws).1 ≠ []) :
    rawLines ws.flatten = (readThrough ws).1 :: rawLines (readThrough ws).2.flatten := by
  rw [← readThrough_append ws]
  exact rawLines_cut hne (readThrough_cases ws)

/-- **The windows do not matter.**  The lines are those of the bytes in a row. -/
theorem lines_eq (ws : Windows) : lines ws = (rawLines ws.flatten).map dropEnd := by
  induction ws using lines.induct with
  | case1 ws r h =>
    have hempty : ws.flatten = [] := by
      rw [← readThrough_append ws, h]
      rcases readThrough_cases ws with ⟨body, -, hread | ⟨-, hrest⟩⟩
      · rw [h] at hread
        simp at hread
      · exact hrest
    rw [lines, dif_pos h, hempty]
    rfl
  | case2 ws r h ih =>
    rw [lines, dif_neg h, rawLines_readThrough h, List.map_cons]
    exact congrArg (dropEnd (readThrough ws).1 :: ·) ih

/-! ## What lines say -/

open Text (words)

/-- The line is text. -/
def isText (line : List UInt8) : Bool := (decodeLine line).isSome

/-- What a line says, under a number that its complaint shows. -/
def said (n : Nat) (line : List UInt8) : Except TraceError (Option Access) :=
  match decodeLine line with
  | none => .error (.unreadable .notUtf8)
  | some text => Access.ofLine n text

/-- What comes of it: a line that says nothing makes no item. -/
def told : Except TraceError (Option Access) → List Item
  | .ok none => []
  | .ok (some op) => [.ok op]
  | .error e => [.error e]

theorem told_injective : Function.Injective told := by
  intro x y h
  rcases x with e | _ | op <;> rcases y with e' | _ | op' <;>
    simp_all [told]

/-- What words say: an access, or nothing. -/
def Says (ws : List (List Char)) : Option Access → Prop
  | none => isSilent ws = true
  | some op => Entry Numeral.Accepts ws op

/-- What a good line says does not depend on its number. -/
theorem said_eq_ok_iff {n : Nat} {line : List UInt8} {op? : Option Access} :
    said n line = .ok op? ↔ ∃ text, decodeLine line = some text ∧ Says (words text.toList) op? := by
  unfold said
  cases decodeLine line with
  | none => simp
  | some text =>
    cases op? with
    | none => simp [Access.ofLine_eq_none_iff, Says]
    | some op => simp [Access.ofLine_eq_some_iff, Says]

theorem said_eq_ok_congr {n m : Nat} {line : List UInt8} {op? : Option Access} :
    said n line = .ok op? ↔ said m line = .ok op? := by
  rw [said_eq_ok_iff, said_eq_ok_iff]

/-- The line is text, and yet neither an entry nor blank nor a comment. -/
def Faulty (line : List UInt8) : Prop :=
  ∃ text, decodeLine line = some text ∧ isSilent (words text.toList) = false ∧
    ∀ op, ¬ Entry Numeral.Accepts (words text.toList) op

/-- **Complaints.**  A line that is not UTF-8 is not named.  Any other bad line goes by its
number. -/
theorem said_eq_error {n : Nat} {line : List UInt8} {e : TraceError} (h : said n line = .error e) :
    (isText line = false ∧ e = .unreadable .notUtf8) ∨ (Faulty line ∧ e.line? = some n) := by
  unfold said at h
  split at h
  · next hline =>
    cases h
    exact .inl ⟨by rw [isText, hline]; rfl, rfl⟩
  · next text hline =>
    refine .inr ⟨⟨text, hline, ?_, ?_⟩, Access.line?_of_ofLine_eq_error h⟩
    · rw [← Bool.not_eq_true, ← Access.ofLine_eq_none_iff, h]
      exact nofun
    · intro op hop
      rw [← Access.ofLine_eq_some_iff, h] at hop
      cases hop

theorem said_of_faulty {line : List UInt8} (h : Faulty line) (n : Nat) :
    ∃ e, said n line = .error e ∧ e.line? = some n := by
  cases hsaid : said n line with
  | error e =>
    rcases said_eq_error hsaid with ⟨htext, -⟩ | ⟨-, hnumber⟩
    · obtain ⟨text, hline, -⟩ := h
      simp [isText, hline] at htext
    · exact ⟨e, rfl, hnumber⟩
  | ok op? =>
    obtain ⟨text, hline, hsilent, hentry⟩ := h
    obtain ⟨text', hline', hsays⟩ := said_eq_ok_iff.mp hsaid
    obtain rfl : text = text' := Option.some.inj (hline.symm.trans hline')
    cases op? with
    | none => simp [Says, hsilent] at hsays
    | some op => exact absurd hsays (hentry op)

/-- A number shows in what is said of a faulty line and nowhere else. -/
theorem said_eq_said_iff {n m : Nat} {line : List UInt8} :
    said n line = said m line ↔ n = m ∨ ¬ Faulty line := by
  constructor
  · intro h
    by_contra hne
    push Not at hne
    obtain ⟨e, he, hn⟩ := said_of_faulty hne.2 n
    obtain ⟨e', he', hm⟩ := said_of_faulty hne.2 m
    rw [he, he'] at h
    cases h
    rw [hn] at hm
    exact hne.1 (Option.some.inj hm)
  · rintro (rfl | h)
    · rfl
    · cases hsaid : said n line with
      | ok op? => exact (said_eq_ok_congr.mp hsaid).symm
      | error e =>
        rcases said_eq_error hsaid with ⟨htext, rfl⟩ | ⟨hfaulty, -⟩
        · have hline : decodeLine line = none := by simpa [isText] using htext
          rw [said, hline]
        · exact absurd hfaulty h

/-! ## Numbers of lines -/

theorem itemsFrom_cons (n : Nat) (line : List UInt8) (rest : List (List UInt8)) :
    itemsFrom n (line :: rest) =
      told (said (n + 1) line) ++ itemsFrom (if isText line then n + 1 else n) rest := by
  rw [itemsFrom, said, isText]
  cases decodeLine line with
  | none => rfl
  | some text =>
    show (match Access.ofLine (n + 1) text with
      | .ok none => _
      | .ok (some op) => _
      | .error e => _) = told (Access.ofLine (n + 1) text) ++ itemsFrom (n + 1) rest
    rcases Access.ofLine (n + 1) text with e | _ | op <;> rfl

/-- A good line adds what it says, and counts as one. -/
theorem itemsFrom_cons_of_ok {n : Nat} {line : List UInt8} {op? : Option Access}
    (h : said (n + 1) line = .ok op?) (rest : List (List UInt8)) :
    itemsFrom n (line :: rest) = op?.toList.map .ok ++ itemsFrom (n + 1) rest := by
  obtain ⟨text, hline, -⟩ := said_eq_ok_iff.mp h
  have htext : isText line = true := by rw [isText, hline]; rfl
  rw [itemsFrom_cons, h, if_pos htext]
  cases op? with
  | none => rfl
  | some op => rfl

/-- The items of lines, where the line with `i` lines before it goes by the number `number i`. -/
def itemsBy (number : Nat → Nat) (ls : List (List UInt8)) : List Item :=
  ls.zipIdx.flatMap fun p => told (said (number p.2) p.1)

theorem itemsBy_cons (number : Nat → Nat) (line : List UInt8) (rest : List (List UInt8)) :
    itemsBy number (line :: rest) =
      told (said (number 0) line) ++ itemsBy (fun i => number (i + 1)) rest := by
  rw [itemsBy, List.zipIdx_cons, List.flatMap_cons, List.zipIdx_succ, List.flatMap_map]
  rfl

/-- **Lines are counted if they are text.** -/
theorem itemsFrom_eq_itemsBy (n : Nat) (ls : List (List UInt8)) :
    itemsFrom n ls = itemsBy (fun i => n + (ls.take i).countP isText + 1) ls := by
  induction ls generalizing n with
  | nil => rfl
  | cons line rest ih =>
    rw [itemsFrom_cons, itemsBy_cons, ih]
    congr 2
    funext i
    rw [List.take_succ_cons, List.countP_cons]
    split <;> omega

/-- A line makes an item under one number if it makes one under any other. -/
theorem length_told_said (n m : Nat) (line : List UInt8) :
    (told (said n line)).length = (told (said m line)).length := by
  cases hn : said n line with
  | ok op? => rw [said_eq_ok_congr.mp hn]
  | error e =>
    cases hm : said m line with
    | ok op? => simp [said_eq_ok_congr.mp hm] at hn
    | error e' => rfl

/-- Two ways to number lines give the same items if they agree on each line that shows its
number. -/
theorem itemsBy_eq_itemsBy_iff {number number' : Nat → Nat} {ls : List (List UInt8)} :
    itemsBy number ls = itemsBy number' ls ↔
      ∀ i line, ls[i]? = some line → Faulty line → number i = number' i := by
  induction ls generalizing number number' with
  | nil => simp [itemsBy]
  | cons line rest ih =>
    have hline : told (said (number 0) line) = told (said (number' 0) line) ↔
        (Faulty line → number 0 = number' 0) := by
      rw [told_injective.eq_iff, said_eq_said_iff]
      tauto
    have hplaces : (∀ i l, (line :: rest)[i]? = some l → Faulty l → number i = number' i) ↔
        (Faulty line → number 0 = number' 0) ∧
          ∀ i l, rest[i]? = some l → Faulty l → number (i + 1) = number' (i + 1) := by
      rw [← Nat.and_forall_add_one]
      simp
    -- the first line makes as many items under either number, so the rest starts at one place
    rw [itemsBy_cons, itemsBy_cons,
      List.append_eq_append_iff_of_size_eq_left (length_told_said _ _ _), hline, ih, hplaces]

/-- **Numbers of lines.**  A complaint shows how many of the lines up to its own are text.  All the
numbers are the places of the lines if no faulty line follows one that is not UTF-8, and only
then. -/
theorem items_eq_itemsBy (ws : Windows) :
    let ls := (rawLines ws.flatten).map dropEnd
    items ws = itemsBy (fun i => (ls.take i).countP isText + 1) ls ∧
      (items ws = itemsBy (fun i => i + 1) ls ↔
        ∀ i line, ls[i]? = some line → Faulty line →
          ∀ earlier ∈ ls.take i, isText earlier = true) := by
  intro ls
  have hitems : items ws = itemsBy (fun i => (ls.take i).countP isText + 1) ls := by
    rw [items, lines_eq, itemsFrom_eq_itemsBy]
    simp only [Nat.zero_add]
    rfl
  refine ⟨hitems, ?_⟩
  rw [hitems, itemsBy_eq_itemsBy_iff]
  refine forall₂_congr fun i line => forall_congr' fun hi => forall_congr' fun _ => ?_
  have hlength : (ls.take i).length = i := by
    have hlt := (List.getElem?_eq_some_iff.mp hi).1
    rw [List.length_take]
    omega
  -- the count is the place if everything before is counted
  rw [← List.countP_eq_length, hlength, Nat.add_right_cancel_iff]

/-- The second line is told as the first if the first is the byte `ff`. -/
theorem items_of_notUtf8 :
    items [[0xff, 0x0a, 0x78, 0x0a]] =
        [.error (.unreadable .notUtf8), .error (.notAnEntry 1 "x")] ∧
      ¬ ∀ ws, items ws = itemsBy (fun i => i + 1) ((rawLines ws.flatten).map dropEnd) := by
  have hitems : items [[0xff, 0x0a, 0x78, 0x0a]] =
      [.error (.unreadable .notUtf8), .error (.notAnEntry 1 "x")] := by cbv
  refine ⟨hitems, fun h => ?_⟩
  have hplaces : itemsBy (fun i => i + 1)
      ((rawLines [[0xff, 0x0a, 0x78, 0x0a]].flatten).map dropEnd) =
      [.error (.unreadable .notUtf8), .error (.notAnEntry 2 "x")] := by cbv
  have hboth := (hitems.symm.trans (h _)).trans hplaces
  simp at hboth

end SetAssoc.Trace

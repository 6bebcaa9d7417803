import SetAssoc.Proofs.Lines
import SetAssoc.Session
import SetAssoc.Trace.Reader
/-!
# One trace, however it is read

A reader shows its bytes through windows, and where one of them ends has no meaning.  The lines that
it reads are those of the bytes ahead (`Reader.lines_eq`), whatever was taken before and by which
calls (`Reader.takeAll_append`).  So a file says the same whether it is mapped or read through a
buffer of any size, in pieces of any length.
-/

namespace SetAssoc.Trace

universe u

namespace Reader

variable {ρ : Type u} [Reader ρ]

/-! ## Lines -/

/-- A line ends at its first line feed, or with the bytes. -/
theorem readLine_cases (r : ρ) :
    ∃ body, lineFeed ∉ body ∧
      ((readLine r).1 = body ++ [lineFeed] ∨
        (readLine r).1 = body ∧ ahead (readLine r).2 = []) := by
  fun_induction readLine r with
  | case1 r w i hi =>
    -- the window shows the line feed
    obtain ⟨hlt, hfeed, hbefore⟩ := List.findIdx?_eq_some_iff_getElem.mp hi
    refine ⟨w.take i, ?_, .inl ?_⟩
    · intro hmem
      obtain ⟨j, hj, hget⟩ := List.mem_take_iff_getElem.mp hmem
      exact hbefore j (by omega) (beq_iff_eq.mpr hget)
    · rw [List.take_add_one, List.getElem?_eq_getElem hlt, eq_of_beq hfeed]
      rfl
  | case2 r w hi hw =>
    -- nothing is left
    refine ⟨[], List.not_mem_nil, .inr ⟨rfl, ?_⟩⟩
    rw [ahead_consume r 0 (Nat.zero_le _), window_eq_nil r hw]
    rfl
  | case3 r w hi hw more ih =>
    -- the line goes on behind the window
    have hwindow : lineFeed ∉ w := by
      intro hmem
      have hnone := List.findIdx?_eq_none_iff.mp hi lineFeed hmem
      simp at hnone
    obtain ⟨body, hbody, hmore | ⟨hmore, hrest⟩⟩ := ih
    · refine ⟨w ++ body, by simp [hwindow, hbody], .inl ?_⟩
      show w ++ (readLine _).1 = _
      rw [hmore, List.append_assoc]
    · refine ⟨w ++ body, by simp [hwindow, hbody], .inr ⟨?_, hrest⟩⟩
      show w ++ (readLine _).1 = _
      rw [hmore]

/-- **The lines that are read** are those of the bytes ahead. -/
theorem lines_eq (r : ρ) : lines r = (rawLines (ahead r)).map dropEnd := by
  fun_induction lines r with
  | case1 r l h =>
    have hnone : ahead r = [] := by
      rw [← readLine_append r, h]
      obtain ⟨body, -, hread | ⟨-, hrest⟩⟩ := readLine_cases r
      · rw [h] at hread
        simp at hread
      · exact hrest
    rw [hnone]
    rfl
  | case2 r l h ih =>
    rw [ih, ← readLine_append r, rawLines_cut h (readLine_cases r)]
    rfl

/-- **What is read** is what the bytes ahead say in whatever windows they come. -/
theorem items_eq (r : ρ) {ws : Windows} (hws : ws.flatten = ahead r) :
    items r = Trace.items ws := by
  rw [items, Trace.items, lines_eq, Trace.lines_eq, hws]

/-! ## Calls in a row -/

/-- A call takes its bytes off the front. -/
theorem take_append (r : ρ) (t : Taking) : (take r t).1 ++ ahead (take r t).2 = ahead r := by
  cases t with
  | read k => exact read_append r k
  | window n => exact append_consume r (Nat.min_le_right n _)

/-- **Calls in a row** take their bytes off the front. -/
theorem takeAll_append (r : ρ) (ts : List Taking) :
    (takeAll r ts).1 ++ ahead (takeAll r ts).2 = ahead r := by
  induction ts generalizing r with
  | nil => rfl
  | cons t ts ih =>
    show ((take r t).1 ++ (takeAll (take r t).2 ts).1) ++ ahead (takeAll (take r t).2 ts).2 = _
    rw [List.append_assoc, ih, take_append]

end Reader

/-! ## Opened files -/

theorem ahead_ofBytes (bytes : List UInt8) (mode : Opened.Mode) :
    Reader.ahead (Opened.ofBytes bytes mode) = bytes := by
  cases mode with
  | mapped => rfl
  | buffered size pace => rfl

-- with room for one byte at a time, every line and the pair at the end of one are cut
example : Reader.lines (Opened.ofBytes [0x52, 0x20, 0x0d, 0x0a, 0x57] (.buffered 0 fun _ => 7)) =
    [[0x52, 0x20], [0x57]] := by cbv

theorem items_ofBytes (bytes : List UInt8) (mode : Opened.Mode) :
    Reader.items (Opened.ofBytes bytes mode) = Trace.items [bytes] := by
  refine Reader.items_eq _ ?_
  rw [ahead_ofBytes, List.flatten_singleton]

/-- A file is opened in one of the ways there are, and a read brings what was asked for as far as the
file goes. -/
theorem exists_source (bytes : List UInt8) :
    ∃ mode, Source.ofFile (.regular bytes) = .ok (.opened (.ofBytes bytes mode)) ∧
      ∀ k, (Reader.read (Opened.ofBytes bytes mode) k).1 = bytes.take k := by
  cases bytes with
  | nil =>
    refine ⟨.buffered (bufferSize - 1) fun _ => bufferSize - 1, rfl, fun k => ?_⟩
    have happend := Reader.read_append (Opened.ofBytes [] (.buffered (bufferSize - 1)
      fun _ => bufferSize - 1)) k
    rw [ahead_ofBytes, List.append_eq_nil_iff] at happend
    rw [happend.1, List.take_nil]
  | cons b bs => exact ⟨.mapped, rfl, fun _ => rfl⟩

/-- **One trace.**  Whatever a file holds, and whether it is mapped or read through a buffer: any
calls take bytes off its front, and what the rest says is what the bytes not taken say, with the
same numbers of lines in its complaints.  In particular this is so after a single read, which takes
no more than it was asked for, and something if there is something.  A file is opened in one of
these ways, and every session runs it as it runs its bytes. -/
theorem one_trace (bytes : List UInt8) :
    (∀ (mode : Opened.Mode) (ts : List Reader.Taking),
      let r := Reader.takeAll (Opened.ofBytes bytes mode) ts
      r.1 = bytes.take r.1.length ∧
        Reader.items r.2 = Trace.items [bytes.drop r.1.length]) ∧
    (∀ (mode : Opened.Mode) (k : Nat),
      let r := Reader.read (Opened.ofBytes bytes mode) k
      r.1.length ≤ k ∧ (k = 0 ∨ bytes = [] ∨ r.1 ≠ []) ∧
        r.1 = bytes.take r.1.length ∧
        Reader.items r.2 = Trace.items [bytes.drop r.1.length]) ∧
    ∃ src, Source.ofFile (.regular bytes) = .ok src ∧
      (∃ mode, src = .opened (Opened.ofBytes bytes mode)) ∧
      (∀ k, (src.read k).1 = .ok (bytes.take k) ∧
        (src.read k).2.items = Trace.items [bytes.drop k]) ∧
      ∀ (s : Session) (mode : Opened.Mode),
        s.run src.items = s.run (Trace.items [bytes]) ∧
        s.run (Reader.items (Opened.ofBytes bytes mode)) = s.run (Trace.items [bytes]) := by
  -- bytes taken off the front of the file leave the others
  have hbehind : ∀ (taken : List UInt8) (rest : Opened), taken ++ Reader.ahead rest = bytes →
      taken = bytes.take taken.length ∧
        Reader.items rest = Trace.items [bytes.drop taken.length] := by
    rintro taken rest rfl
    rw [List.take_left, List.drop_left]
    exact ⟨rfl, Reader.items_eq rest List.flatten_singleton⟩
  have hread (mode : Opened.Mode) (k : Nat) :
      (Reader.read (Opened.ofBytes bytes mode) k).1 ++
        Reader.ahead (Reader.read (Opened.ofBytes bytes mode) k).2 = bytes := by
    rw [Reader.read_append, ahead_ofBytes]
  refine ⟨fun mode ts => hbehind _ _ ?_, fun mode k => ?_, ?_⟩
  · rw [Reader.takeAll_append, ahead_ofBytes]
  · refine ⟨Reader.length_read_le _ k, ?_, hbehind _ _ (hread mode k)⟩
    by_cases hempty : (Reader.read (Opened.ofBytes bytes mode) k).1 = []
    · have hnone := Reader.read_eq_nil _ k hempty
      rw [ahead_ofBytes] at hnone
      exact hnone.imp_right .inl
    · exact .inr (.inr hempty)
  · obtain ⟨mode, hopen, hfull⟩ := exists_source bytes
    refine ⟨_, hopen, ⟨mode, rfl⟩, fun k => ?_, fun s mode' => ?_⟩
    · -- what a read brings tells what it leaves
      have hrest : Reader.ahead (Reader.read (Opened.ofBytes bytes mode) k).2 = bytes.drop k := by
        have happend := hread mode k
        rw [hfull k] at happend
        exact List.append_cancel_left (happend.trans (List.take_append_drop k bytes).symm)
      refine ⟨congrArg Except.ok (hfull k), ?_⟩
      exact Reader.items_eq _ (by rw [List.flatten_singleton, hrest])
    · exact ⟨congrArg s.run (items_ofBytes bytes mode), congrArg s.run (items_ofBytes bytes mode')⟩

end SetAssoc.Trace

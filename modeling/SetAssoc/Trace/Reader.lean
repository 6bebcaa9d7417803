import SetAssoc.Trace.Lines
/-!
# Readers

There are two ways to take bytes from a reader, and both move it on.  A read asks for so many bytes
and may get fewer.  The other way is to open a window on the bytes ahead and then to say how many of
them are taken; lines are read like that, window after window, until a line feed turns up.

A `Cursor` goes through bytes in memory, and its window is everything ahead.  A `Buffered` reader
goes through a file of which each read brings as much as it likes.  `Opened` is one of the two, and
hands every call on.
-/

namespace SetAssoc.Trace

universe u

/-- What bytes can be taken from. -/
class Reader (ρ : Type u) where
  /-- The bytes that have not been taken. -/
  ahead : ρ → List UInt8
  /-- A single read of at most so many bytes. -/
  read : ρ → Nat → List UInt8 × ρ
  /-- A window on the bytes ahead, and the reader with that window open. -/
  fill : ρ → List UInt8 × ρ
  /-- The reader after so many bytes of its window were taken. -/
  consume : ρ → Nat → ρ
  /-- A read takes the bytes off the front. -/
  read_append (r : ρ) (k : Nat) : (read r k).1 ++ ahead (read r k).2 = ahead r
  /-- It takes no more than it was asked for. -/
  length_read_le (r : ρ) (k : Nat) : (read r k).1.length ≤ k
  /-- It takes nothing only if nothing was asked for or nothing is left. -/
  read_eq_nil (r : ρ) (k : Nat) : (read r k).1 = [] → k = 0 ∨ ahead r = []
  /-- A window shows the bytes at the front. -/
  take_window (r : ρ) : (ahead r).take (fill r).1.length = (fill r).1
  /-- It is empty only if nothing is left. -/
  window_eq_nil (r : ρ) : (fill r).1 = [] → ahead r = []
  /-- As much of it as was seen can be taken. -/
  ahead_consume (r : ρ) (n : Nat) : n ≤ (fill r).1.length →
    ahead (consume (fill r).2 n) = (ahead r).drop n

/-! ## Lines -/

namespace Reader

variable {ρ : Type u} [Reader ρ]

theorem ahead_consume_window (r : ρ) :
    ahead (consume (fill r).2 (fill r).1.length) = (ahead r).drop (fill r).1.length :=
  ahead_consume r _ (Nat.le_refl _)

/-- The bytes up to and including the first line feed, or all of them where there is none, and the
reader behind them. -/
def readLine (r : ρ) : List UInt8 × ρ :=
  let w := (fill r).1
  match w.findIdx? (· == lineFeed) with
  | some i => (w.take (i + 1), consume (fill r).2 (i + 1))
  | none =>
    if _ : w = [] then ([], consume (fill r).2 0)
    else
      let more := readLine (consume (fill r).2 w.length)
      (w ++ more.1, more.2)
termination_by (ahead r).length
decreasing_by
  have hshown := congrArg List.length (take_window r)
  have hpos : 0 < (fill r).1.length := List.length_pos_iff.mpr ‹_›
  rw [ahead_consume_window, List.length_drop]
  rw [List.length_take] at hshown
  omega

theorem append_consume (r : ρ) {n : Nat} (hn : n ≤ (fill r).1.length) :
    (fill r).1.take n ++ ahead (consume (fill r).2 n) = ahead r := by
  rw [ahead_consume r n hn, ← take_window r, List.take_take, Nat.min_eq_left hn,
    List.take_append_drop]

/-- A line is taken off the front. -/
theorem readLine_append (r : ρ) : (readLine r).1 ++ ahead (readLine r).2 = ahead r := by
  fun_induction readLine r with
  | case1 r w i hi =>
    have hlt := (List.findIdx?_eq_some_iff_getElem.mp hi).1
    exact append_consume r hlt
  | case2 r w hi hw =>
    exact append_consume r (Nat.zero_le _)
  | case3 r w hi hw more ih =>
    have happend := append_consume r (Nat.le_refl _)
    rw [List.take_length] at happend
    show (w ++ more.1) ++ ahead more.2 = _
    rw [List.append_assoc, ih]
    exact happend

/-- The lines ahead, without their ends. -/
def lines (r : ρ) : List (List UInt8) :=
  let l := readLine r
  if _ : l.1 = [] then [] else dropEnd l.1 :: lines l.2
termination_by (ahead r).length
decreasing_by
  have happend := congrArg List.length (readLine_append r)
  have hpos : 0 < (readLine r).1.length := List.length_pos_iff.mpr ‹_›
  rw [List.length_append] at happend
  show (ahead (readLine r).2).length < (ahead r).length
  omega

/-- What the lines ahead say. -/
def items (r : ρ) : List Item := itemsFrom 0 (lines r)

/-! ## Calls in a row -/

/-- One call that takes bytes. -/
inductive Taking where
  /-- A read of at most so many bytes. -/
  | read (k : Nat)
  /-- So many bytes of a window, or all that it shows. -/
  | window (n : Nat)
deriving DecidableEq, Repr

/-- The bytes that one call takes, and the reader behind them. -/
def take (r : ρ) : Taking → List UInt8 × ρ
  | .read k => read r k
  | .window n =>
    let n := min n (fill r).1.length
    ((fill r).1.take n, consume (fill r).2 n)

/-- The bytes that calls take one after the other, and the reader behind them. -/
def takeAll (r : ρ) : List Taking → List UInt8 × ρ
  | [] => ([], r)
  | t :: ts =>
    let one := take r t
    let rest := takeAll one.2 ts
    (one.1 ++ rest.1, rest.2)

end Reader

/-- Bytes taken off the front leave the others. -/
theorem take_append_drop_length (bytes : List UInt8) (k : Nat) :
    bytes.take k ++ bytes.drop (bytes.take k).length = bytes :=
  List.prefix_iff_eq_append.mp ⟨bytes.drop k, List.take_append_drop k bytes⟩

/-! ## Bytes in memory -/

/-- Bytes in memory.  Those that were taken are never seen again. -/
structure Cursor where
  /-- The bytes that have not been taken. -/
  ahead : List UInt8
deriving DecidableEq, Repr

namespace Cursor

/-- The cursor moved on by so many bytes. -/
def consume (s : Cursor) (n : Nat) : Cursor := ⟨s.ahead.drop n⟩

/-- A read of at most so many bytes, as many as there are. -/
def read (s : Cursor) (k : Nat) : List UInt8 × Cursor :=
  let bytes := s.ahead.take k
  (bytes, s.consume bytes.length)

instance : Reader Cursor where
  ahead := ahead
  read := read
  fill s := (s.ahead, s)
  consume := consume
  read_append s k := take_append_drop_length s.ahead k
  length_read_le s k := List.length_take_le k s.ahead
  read_eq_nil s k h := by
    rw [← List.take_eq_nil_iff]
    exact h
  take_window s := List.take_length
  window_eq_nil s h := h
  ahead_consume s n _ := rfl

end Cursor

/-! ## Files through a buffer -/

/-- A file that is read from the front. -/
structure Handle where
  /-- The bytes still to come. -/
  rest : List UInt8
  /-- How many bytes the reads to come bring at most, besides the first one. -/
  pace : Nat → Nat

/-- A read of at most so many bytes, of which some come as long as there are any. -/
def Handle.read (s : Handle) (k : Nat) : List UInt8 × Handle :=
  let n := min k (s.pace 0 + 1)
  (s.rest.take n, ⟨s.rest.drop n, fun i => s.pace (i + 1)⟩)

/-- A file that is read into a buffer first. -/
structure Buffered where
  /-- How many bytes the buffer holds, besides the first one. -/
  size : Nat
  /-- The bytes in the buffer that have not been taken. -/
  buffer : List UInt8
  /-- Where the buffer is filled from. -/
  file : Handle

namespace Buffered

/-- The bytes that have not been taken. -/
def ahead (s : Buffered) : List UInt8 := s.buffer ++ s.file.rest

/-- The buffer, filled if nothing is left in it. -/
def fill (s : Buffered) : List UInt8 × Buffered :=
  if s.buffer = [] then
    let (bytes, file) := s.file.read (s.size + 1)
    (bytes, { s with buffer := bytes, file })
  else
    (s.buffer, s)

/-- The reader after so many bytes of the buffer were taken. -/
def consume (s : Buffered) (n : Nat) : Buffered := { s with buffer := s.buffer.drop n }

/-- A read of at most so many bytes from the buffer.  It goes past the buffer if nothing is left
there and the buffer could not hold more than was asked for. -/
def read (s : Buffered) (k : Nat) : List UInt8 × Buffered :=
  if s.buffer = [] ∧ s.size + 1 ≤ k then
    let (bytes, file) := s.file.read k
    (bytes, { s with file })
  else
    let bytes := s.fill.1.take k
    (bytes, s.fill.2.consume bytes.length)

/-- What the buffer shows is what it holds. -/
theorem buffer_fill (s : Buffered) : s.fill.2.buffer = s.fill.1 := by
  unfold fill
  split
  · rfl
  · rfl

/-- Filling the buffer takes nothing. -/
theorem ahead_fill (s : Buffered) : s.fill.1 ++ s.fill.2.file.rest = s.ahead := by
  unfold fill
  split
  · next hempty =>
    rw [ahead, hempty]
    exact List.take_append_drop _ s.file.rest
  · rfl

/-- A filled buffer is empty only at the end. -/
theorem ahead_eq_nil (s : Buffered) (h : s.fill.1 = []) : s.ahead = [] := by
  unfold fill at h
  split at h
  · next hempty =>
    have hrest : s.file.rest = [] := (List.take_eq_nil_iff.mp h).resolve_left (by omega)
    rw [ahead, hempty, hrest]
    rfl
  · next hne => exact absurd h hne

instance : Reader Buffered where
  ahead := ahead
  read := read
  fill := fill
  consume := consume
  read_append s k := by
    unfold read
    split
    · next hpast =>
      show s.file.rest.take _ ++ (s.buffer ++ s.file.rest.drop _) = s.buffer ++ s.file.rest
      rw [hpast.1, List.nil_append, List.nil_append, List.take_append_drop]
    · show s.fill.1.take k ++ (s.fill.2.buffer.drop _ ++ s.fill.2.file.rest) = s.ahead
      rw [buffer_fill, ← List.append_assoc, take_append_drop_length, ahead_fill]
  length_read_le s k := by
    unfold read
    split
    · exact Nat.le_trans (List.length_take_le _ _) (Nat.min_le_left _ _)
    · exact List.length_take_le _ _
  read_eq_nil s k h := by
    unfold read at h
    split at h
    · next hpast =>
      have hrest : min k (s.file.pace 0 + 1) = 0 ∨ s.file.rest = [] := List.take_eq_nil_iff.mp h
      refine .inr ?_
      rw [ahead, hpast.1, hrest.resolve_left (by omega)]
      rfl
    · exact (List.take_eq_nil_iff.mp h).imp_right s.ahead_eq_nil
  take_window s := by
    rw [← ahead_fill]
    exact List.take_left
  window_eq_nil := ahead_eq_nil
  ahead_consume s n hn := by
    show s.fill.2.buffer.drop n ++ s.fill.2.file.rest = s.ahead.drop n
    rw [buffer_fill, ← ahead_fill, List.drop_append_of_le_length hn]

end Buffered

/-! ## Either -/

/-- A trace that is open for reading. -/
inductive Opened where
  /-- The bytes lie in memory. -/
  | mapped (cursor : Cursor)
  /-- The bytes come through a buffer. -/
  | buffered (file : Buffered)

namespace Opened

instance : Reader Opened where
  ahead
    | mapped s => Reader.ahead s
    | buffered s => Reader.ahead s
  read s k :=
    match s with
    | mapped s => ((Reader.read s k).1, mapped (Reader.read s k).2)
    | buffered s => ((Reader.read s k).1, buffered (Reader.read s k).2)
  fill
    | mapped s => ((Reader.fill s).1, mapped (Reader.fill s).2)
    | buffered s => ((Reader.fill s).1, buffered (Reader.fill s).2)
  consume s n :=
    match s with
    | mapped s => mapped (Reader.consume s n)
    | buffered s => buffered (Reader.consume s n)
  read_append s k := by
    cases s with
    | mapped s => exact Reader.read_append s k
    | buffered s => exact Reader.read_append s k
  length_read_le s k := by
    cases s with
    | mapped s => exact Reader.length_read_le s k
    | buffered s => exact Reader.length_read_le s k
  read_eq_nil s k := by
    cases s with
    | mapped s => exact Reader.read_eq_nil s k
    | buffered s => exact Reader.read_eq_nil s k
  take_window s := by
    cases s with
    | mapped s => exact Reader.take_window s
    | buffered s => exact Reader.take_window s
  window_eq_nil s := by
    cases s with
    | mapped s => exact Reader.window_eq_nil s
    | buffered s => exact Reader.window_eq_nil s
  ahead_consume s := by
    cases s with
    | mapped s => exact Reader.ahead_consume s
    | buffered s => exact Reader.ahead_consume s

/-- How a file is opened. -/
inductive Mode where
  /-- It is mapped. -/
  | mapped
  /-- It is read through a buffer of this size, and its reads bring this much. -/
  | buffered (size : Nat) (pace : Nat → Nat)

/-- A file with these bytes, just opened. -/
def ofBytes (bytes : List UInt8) : Mode → Opened
  | .mapped => mapped ⟨bytes⟩
  | .buffered size pace => buffered ⟨size, [], ⟨bytes, pace⟩⟩

end Opened

end SetAssoc.Trace

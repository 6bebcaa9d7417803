import SetAssoc.Proofs.Replays
/-!
# Traces one after the other

A trace that ends with a line feed can be cut there.  To run the first part and then the second on
the same session comes to the same as to run both as one trace (`Session.run_items_append`), as long
as the first part has no bad line.  What is wrong with the second part is then told alike, but for
the numbers of its lines: on its own it is counted from its own first line, and behind the first
part from the first line of all.

Numbers are where the two runs could come apart, since only lines that are UTF-8 are counted.  A
first part without a bad line has no other lines, so its lines are as many as its line feeds.
-/

namespace SetAssoc

universe u v

/-! ## Complaints behind other lines -/

/-- The complaint about a line, once it has `n` more lines before it. -/
def TraceError.behind (n : Nat) : TraceError → TraceError
  | .notAnEntry line text => .notAnEntry (n + line) text
  | .notANumber line text cause => .notANumber (n + line) text cause
  | .unreadable fault => .unreadable fault

/-- A complaint about either of two steps can be reworded as it arises. -/
theorem mapError_bind {ε ε' α β : Type} (h : ε → ε') (x : Except ε α) (f : α → Except ε β) :
    (x >>= f).mapError h = x.mapError h >>= fun a => (f a).mapError h := by
  cases x <;> rfl

namespace Trace

theorem operand_add (n line : Nat) (text : List Char) :
    operand (n + line) text = (operand line text).mapError (TraceError.behind n) := by
  rw [operand, operand]
  cases Numeral.parse text <;> rfl

theorem Shape.read_add (n line : Nat) (text : String) (s : Shape) :
    s.read (n + line) text = (s.read line text).mapError (TraceError.behind n) := by
  have hvalue : s.value.mapM (operand (n + line)) =
      (s.value.mapM (operand line)).mapError (TraceError.behind n) := by
    cases s.value with
    | none => rfl
    | some value =>
      rw [Option.mapM_some, Option.mapM_some, operand_add]
      cases operand line value <;> rfl
  rw [Shape.read, Shape.read, mapError_bind, operand_add]
  congr 1
  funext address
  rw [mapError_bind, hvalue]
  congr 1
  funext value
  cases isReadLetter s.letter <;> cases value <;> rfl

end Trace

open Trace

/-- **A line behind others** says the same, or is complained about under its own number. -/
theorem Access.ofLine_add (n line : Nat) (text : String) :
    Access.ofLine (n + line) text =
      (Access.ofLine line text).mapError (TraceError.behind n) := by
  rw [Access.ofLine_eq, Access.ofLine_eq]
  split
  · rfl
  · split
    · rfl
    · exact Shape.read_add n line text _

namespace Trace

theorem told_said_add (n k : Nat) (line : List UInt8) :
    told (said (n + k) line) =
      (told (said k line)).map (Except.mapError (TraceError.behind n)) := by
  rw [said, said]
  cases decodeLine line with
  | none => rfl
  | some text =>
    simp only [Access.ofLine_add]
    rcases Access.ofLine k text with e | _ | op <;> rfl

/-- **Lines behind others** make the same items, with higher numbers in the complaints. -/
theorem itemsFrom_add (n k : Nat) (ls : List (List UInt8)) :
    itemsFrom (n + k) ls = (itemsFrom k ls).map (Except.mapError (TraceError.behind n)) := by
  induction ls generalizing k with
  | nil => rfl
  | cons line rest ih =>
    rw [itemsFrom_cons, itemsFrom_cons, List.map_append, ← told_said_add, Nat.add_assoc, ← ih]
    cases isText line <;> rfl

theorem itemsFrom_append (n : Nat) (ls rest : List (List UInt8)) :
    itemsFrom n (ls ++ rest) = itemsFrom n ls ++ itemsFrom (n + ls.countP isText) rest := by
  induction ls generalizing n with
  | nil => rfl
  | cons line ls ih =>
    rw [List.cons_append, itemsFrom_cons, itemsFrom_cons, ih, List.append_assoc, List.countP_cons]
    congr 3
    cases isText line with
    | false => rfl
    | true => exact (Nat.add_assoc n _ _).trans (congrArg (n + ·) (Nat.add_comm 1 _))

/-- A line that is not UTF-8 shows among the items. -/
theorem mem_itemsFrom_of_not_isText {ls : List (List UInt8)} {line : List UInt8} (h : line ∈ ls)
    (htext : isText line = false) (n : Nat) : .error (.unreadable .notUtf8) ∈ itemsFrom n ls := by
  induction ls generalizing n with
  | nil => cases h
  | cons first rest ih =>
    rw [itemsFrom_cons, List.mem_append]
    rcases List.mem_cons.mp h with rfl | h
    · have hdecode : decodeLine line = none := by simpa [isText] using htext
      rw [said, hdecode]
      exact .inl List.mem_cons_self
    · exact .inr (ih h _)

/-! ## Cutting a trace -/

/-- A trace that ends with a line feed has as many lines as line feeds. -/
theorem length_rawLines {bytes : List UInt8} (h : bytes = [] ∨ bytes.getLast? = some lineFeed) :
    (rawLines bytes).length = bytes.count lineFeed := by
  induction hlen : bytes.length using Nat.strongRecOn generalizing bytes with
  | ind len ih =>
    rcases h with rfl | h
    · rfl
    · -- cut behind the first line feed
      obtain ⟨body, rest, rfl, hbody⟩ :=
        List.eq_append_cons_of_mem (List.mem_of_getLast? h)
      have hrest : rest = [] ∨ rest.getLast? = some lineFeed := by
        cases rest with
        | nil => exact .inl rfl
        | cons b rest =>
          rw [List.getLast?_append_of_ne_nil _ (List.cons_ne_nil _ _),
            List.getLast?_cons_cons] at h
          exact .inr h
      have hshorter : rest.length < len := by
        rw [← hlen, List.length_append, List.length_cons]
        omega
      rw [rawLines_cons hbody, List.length_cons, ih _ hshorter hrest rfl, List.count_append,
        List.count_cons_self, List.count_eq_zero.mpr hbody, Nat.zero_add]

/-- **The lines of two parts** are the lines of one trace, if it is cut where a line ends. -/
theorem lines_append {as bs ws : Windows} (hws : ws.flatten = as.flatten ++ bs.flatten)
    (hend : as.flatten = [] ∨ as.flatten.getLast? = some lineFeed) :
    lines ws = lines as ++ lines bs := by
  rw [lines_eq, lines_eq, lines_eq, hws, ← List.map_append]
  rcases hend with hempty | hend
  · rw [hempty]
    rfl
  · rw [rawLines_append hend]

end Trace

/-! ## Replays -/

section
variable {g : Geometry} {μ : Type u} {ν : Type v} [Store μ] [Evictor ν]

/-- A replay comes to its end if no item is a complaint. -/
theorem Cache.error?_replay_eq_none_iff (c : Cache g μ ν) (items : List Item) :
    (c.replay items).error? = none ↔ ∀ e, .error e ∉ items := by
  induction items generalizing c with
  | nil => simp [replay]
  | cons item items ih =>
    cases item with
    | error e =>
      simp only [replay, reduceCtorEq, false_iff]
      exact fun h => h e List.mem_cons_self
    | ok op =>
      show ((c.access op).2.replay items).error? = none ↔ _
      simp [ih]

/-- **A replay of two parts** goes on where the first part ends, if that is its end. -/
theorem Cache.replay_append (c : Cache g μ ν) {items : List Item}
    (h : (c.replay items).error? = none) (more : List Item) :
    let rest := (c.replay items).state.replay more
    c.replay (items ++ more) = { rest with events := (c.replay items).events ++ rest.events } := by
  induction items generalizing c with
  | nil => rfl
  | cons item items ih =>
    cases item with
    | error e => cases h
    | ok op =>
      have hrest := ih (c.access op).2 h
      simp only [List.cons_append, replay, hrest, List.append_assoc]

/-- A replay heeds a complaint and not its wording. -/
theorem Cache.replay_map_mapError (c : Cache g μ ν) (f : TraceError → TraceError)
    (items : List Item) :
    c.replay (items.map (Except.mapError f)) =
      { c.replay items with error? := (c.replay items).error?.map f } := by
  induction items generalizing c with
  | nil => rfl
  | cons item items ih =>
    cases item with
    | error e => rfl
    | ok op =>
      have hrest := ih (c.access op).2
      simp only [List.map_cons, Except.mapError, replay, hrest]

end

/-! ## Sessions -/

namespace Session

/-- **One trace or two.**  A trace is cut behind a line feed, or before its first byte, and its
first part runs to its end.  Then to run both parts, one after the other, leaves the same session as
to run the whole trace, with the same cache and the same report; and both run to the end, or both
are complained about for the same line and in the same way, except that the number of that line is
higher by the lines of the first part if the trace is run as a whole. -/
theorem run_items_append (s : Session) {as bs ws : Windows}
    (hws : ws.flatten = as.flatten ++ bs.flatten)
    (hend : as.flatten = [] ∨ as.flatten.getLast? = some lineFeed)
    (hgood : (s.run (items as)).error? = none) :
    let first := s.run (items as)
    let second := first.state.run (items bs)
    let whole := s.run (items ws)
    whole.state = second.state ∧
      whole.error? = second.error?.map (TraceError.behind (as.flatten.count lineFeed)) := by
  intro first second whole
  have hquiet : ∀ e, .error e ∉ items as := (s.cache.error?_replay_eq_none_iff _).mp hgood
  -- no line of the first part is left out of the count
  have htext : (lines as).countP isText = as.flatten.count lineFeed := by
    have hall : ∀ line ∈ lines as, isText line = true := by
      intro line hline
      by_contra hnot
      exact hquiet _ (mem_itemsFrom_of_not_isText hline (by simpa using hnot) 0)
    rw [List.countP_eq_length.mpr hall, lines_eq, List.length_map, length_rawLines hend]
  have hitems : items ws = items as ++
      (items bs).map (Except.mapError (TraceError.behind (as.flatten.count lineFeed))) := by
    rw [items, lines_append hws hend, itemsFrom_append, htext, Nat.add_comm, itemsFrom_add]
    rfl
  have hreplay := s.cache.replay_append hgood
    ((items bs).map (Except.mapError (TraceError.behind (as.flatten.count lineFeed))))
  rw [← hitems, Cache.replay_map_mapError] at hreplay
  have hstate : (s.cache.replay (items ws)).state =
      ((s.cache.replay (items as)).state.replay (items bs)).state := by rw [hreplay]
  refine ⟨?_, ?_⟩
  · simp only [whole, second, first, run, hstate]
    rfl
  · show (s.cache.replay (items ws)).error? = _
    rw [hreplay]
    rfl

/-- The second line of the second part is the third line of the whole, and no entry. -/
theorem run_items_append_of_bad_line :
    let s : Session :=
      { geometry := ⟨1, 0, 2, by decide, by decide, by decide⟩
        cache := .empty _ .leastRecentlyUsed {} (.ofSeed 0)
        report := { name := "cache" } }
    let first := s.run (items [[0x52, 0x20, 0x34, 0x0a]])
    let second := first.state.run (items [[0x23, 0x0a, 0x78, 0x0a]])
    let whole := s.run (items [[0x52, 0x20, 0x34, 0x0a, 0x23], [0x0a, 0x78, 0x0a]])
    first.error? = none ∧ whole.state = second.state ∧
      second.error? = some (.notAnEntry 2 "x") ∧ whole.error? = some (.notAnEntry 3 "x") := by
  intro s first second whole
  have hgood : (s.run (items [[0x52, 0x20, 0x34, 0x0a]])).error? = none := by cbv
  have hbad : second.error? = some (.notAnEntry 2 "x") := by cbv
  have hcut : ([[0x52, 0x20, 0x34, 0x0a, 0x23], [0x0a, 0x78, 0x0a]] : Windows).flatten =
      ([[0x52, 0x20, 0x34, 0x0a]] : Windows).flatten ++
        ([[0x23, 0x0a, 0x78, 0x0a]] : Windows).flatten := rfl
  obtain ⟨hstate, herror⟩ := run_items_append s hcut (.inr rfl) hgood
  refine ⟨hgood, hstate, hbad, ?_⟩
  rw [herror, hbad]
  rfl

end Session

end SetAssoc

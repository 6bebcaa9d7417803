import SetAssoc.Proofs.Renderings
import SetAssoc.Proofs.Replays
import SetAssoc.Proofs.Totals
import SetAssoc.Trace.Synthetic
import Mathlib
/-!
# Made-up traces are read as drawn

The line made up for an access is one of its renderings: the hexadecimal digits printed spell the
number (`makes_hexDigits`), with zeros before them or without.  So the text of a made-up trace is a
rendering of the accesses drawn (`renders_lines`), and whatever is known of renderings holds of it.
What is drawn is bounded by the ranges it is drawn from.
-/

namespace SetAssoc

universe u v

namespace Numeral

/-! ## Numbers as they are printed -/

theorem value_concat (ds : List Nat) (d : Nat) : value (ds ++ [d]) = value ds * 16 + d := by
  rw [value, List.reverse_concat, Nat.ofDigits_cons, value]
  ring

theorem value_replicate_zero_append (k : Nat) (ds : List Nat) :
    value (List.replicate k 0 ++ ds) = value ds := by
  rw [value, List.reverse_append, List.reverse_replicate, Nat.ofDigits_append_replicate_zero, value]

theorem writes_digitChar {d : Nat} (hd : d < 16) : Writes d.digitChar d := ⟨hd, .inl rfl⟩

/-- The digits printed for a number make it up. -/
theorem exists_writes_toDigits (n : Nat) :
    ∃ ds, List.Forall₂ Writes (Nat.toDigits 16 n) ds ∧ value ds = n := by
  induction n using Nat.strongRecOn with
  | _ n ih =>
    by_cases hn : n < 16
    · refine ⟨[n], ?_, by simp [value]⟩
      rw [Nat.toDigits_of_lt_base hn]
      exact .cons (writes_digitChar hn) .nil
    · -- the last digit is printed behind those of the rest
      have hlast : n % 16 < 16 := Nat.mod_lt n (by decide)
      obtain ⟨ds, hds, hvalue⟩ := ih (n / 16) (by omega)
      have hsplit := Nat.toDigits_append_toDigits (by decide : 1 < 16)
        (Nat.div_pos (Nat.le_of_not_lt hn) (by decide)) hlast
      rw [Nat.div_add_mod, Nat.toDigits_of_lt_base hlast] at hsplit
      refine ⟨ds ++ [n % 16], ?_, ?_⟩
      · rw [← hsplit]
        exact List.rel_append hds (.cons (writes_digitChar hlast) .nil)
      · rw [value_concat, hvalue]
        exact Nat.div_add_mod' n 16

theorem writes_zeros (k : Nat) :
    List.Forall₂ Writes (List.replicate k '0') (List.replicate k 0) := by
  induction k with
  | zero => exact .nil
  | succ k ih => exact .cons (writes_digitChar (by decide)) ih

/-- **Zeros in front** make no difference. -/
theorem makes_hexDigits (width : Nat) (v : UInt32) : Makes (hexDigits width v.toNat) v := by
  obtain ⟨ds, hds, hvalue⟩ := exists_writes_toDigits v.toNat
  refine ⟨by simp [hexDigits, Nat.toDigits_ne_nil], ?_⟩
  refine ⟨List.replicate (width - (Nat.toDigits 16 v.toNat).length) 0 ++ ds, ?_, ?_⟩
  · exact List.rel_append (writes_zeros _) hds
  · rw [value_replicate_zero_append, hvalue]

theorem spells_hexDigits (width : Nat) (v : UInt32) :
    Spells [] ('0' :: 'x' :: hexDigits width v.toNat) v :=
  ⟨['0', 'x'], by decide, hexDigits width v.toNat, rfl, makes_hexDigits width v⟩

end Numeral

namespace Trace

/-! ## The text -/

theorem gap_space : Gap [' '] := by
  intro b hb
  obtain rfl := List.mem_singleton.mp hb
  decide

/-- **The line of an access** is written for it. -/
theorem exists_written_line (op : Access) :
    ∃ cs, op.line.toList = cs ++ ['\n'] ∧ Written (some op) cs := by
  have hnone : Gap [] := by simp [Gap]
  cases op with
  | read a =>
    refine ⟨_, ?_, .read hnone (.inr rfl) gap_space (by simp)
      (Numeral.spells_hexDigits 8 a) hnone⟩
    show ("R " ++ hexWord a ++ "\n").toList = _
    simp [hexWord]
  | write a v =>
    refine ⟨_, ?_, .write hnone (.inr rfl) gap_space (by simp)
      (Numeral.spells_hexDigits 8 a) gap_space (by simp) (Numeral.spells_hexDigits 1 v) hnone⟩
    show ("W " ++ hexWord a ++ " " ++ hexNumber v.toNat ++ "\n").toList = _
    simp [hexWord, hexNumber]

/-- **The lines of some accesses** are written for them. -/
theorem renders_lines (ops : List Access) :
    Renders ops (String.join (ops.map Access.line)).toList := by
  induction ops with
  | nil =>
    have hempty : Written none [] := .blank (by simp [Gap])
    exact .last hempty
  | cons op ops ih =>
    obtain ⟨cs, hline, hwritten⟩ := exists_written_line op
    rw [List.map_cons, String.join_cons, String.toList_append, hline, List.append_assoc]
    exact .line hwritten (.inl rfl) ih

/-- **The lines of some accesses** are read back as these accesses, in whatever windows they
come. -/
theorem items_of_lines (ops : List Access) {ws : Windows}
    (hws : ws.flatten = (String.join (ops.map Access.line)).toUTF8.data.toList) :
    items ws = ops.map .ok := by
  rw [items, lines_eq, hws, ← encode_toList]
  exact (renders_lines ops).itemsFrom_eq 0

/-! ## The accesses -/

/-- What is drawn lies in the ranges that it is drawn from. -/
structure InSpan (span : UInt32) (op : Access) : Prop where
  /-- Addresses are those of whole words. -/
  aligned : 4 ∣ op.address.toNat
  /-- Addresses lie below the span, which has room for one word at least. -/
  address_lt : op.address.toNat < max span.toNat 4
  /-- Values have a single digit. -/
  value_lt : ∀ a v, op = .write a v → v.toNat < 16

section Draws

variable {σ : Type} [Dice σ]

theorem drawAccess_inSpan (span : UInt32) (s : σ) : InSpan span (drawAccess span s).1 := by
  have hplace : (Dice.below (max span.toNat 4) s).1 < max span.toNat 4 :=
    Dice.below_lt s (by omega)
  unfold drawAccess
  -- from here on what was drawn is known by its range alone
  generalize Dice.below (max span.toNat 4) s = drawn at hplace ⊢
  obtain ⟨place, s'⟩ := drawn
  have haddress : (UInt32.ofNat (place / 4 * 4)).toNat = place / 4 * 4 := by
    have hspan : span.toNat < UInt32.size := span.toNat_lt
    have hsize : UInt32.size = 4294967296 := rfl
    exact UInt32.toNat_ofNat_of_lt' (by omega)
  have haligned : 4 ∣ (UInt32.ofNat (place / 4 * 4)).toNat := by
    rw [haddress]
    exact Nat.dvd_mul_left 4 (place / 4)
  have hlt : (UInt32.ofNat (place / 4 * 4)).toNat < max span.toNat 4 := by
    rw [haddress]
    exact Nat.lt_of_le_of_lt (Nat.div_mul_le_self place 4) hplace
  dsimp only
  generalize Dice.oneInThree s' = lot
  obtain ⟨lot, s''⟩ := lot
  cases lot with
  | false => exact ⟨haligned, hlt, fun a v hop => by cases hop⟩
  | true =>
    have hvalue : (Dice.below 16 s'').1 < 16 := Dice.below_lt s'' (by decide)
    dsimp only
    generalize Dice.below 16 s'' = drawn at hvalue ⊢
    obtain ⟨value, s'''⟩ := drawn
    refine ⟨haligned, hlt, ?_⟩
    rintro a v hop
    cases hop
    rw [UInt32.toNat_ofNat_of_lt' (Nat.lt_trans hvalue (by decide))]
    exact hvalue

theorem drawAccesses_succ (span : UInt32) (n : Nat) (s : σ) :
    drawAccesses span (n + 1) s =
      (drawAccess span s).1 :: drawAccesses span n (drawAccess span s).2 := by
  simp only [drawAccesses]

theorem length_drawAccesses (span : UInt32) (n : Nat) (s : σ) :
    (drawAccesses span n s).length = n := by
  induction n generalizing s with
  | zero => rfl
  | succ n ih => rw [drawAccesses_succ, List.length_cons, ih]

theorem inSpan_of_mem_drawAccesses {span : UInt32} {n : Nat} {s : σ} {op : Access}
    (h : op ∈ drawAccesses span n s) : InSpan span op := by
  induction n generalizing s with
  | zero => cases h
  | succ n ih =>
    rw [drawAccesses_succ] at h
    rcases List.mem_cons.mp h with rfl | h
    · exact drawAccess_inSpan span s
    · exact ih h

end Draws

end Trace

/-! ## What is read -/

/-- A trace without a bad line comes to all of its accesses. -/
theorem Cache.replay_map_ok {g : Geometry} {μ : Type u} {ν : Type v} [Store μ] [Evictor ν]
    (c : Cache g μ ν) (ops : List Access) :
    c.replay (ops.map .ok) =
      { events := (c.run ops).1.flatMap Reply.events, error? := none, state := (c.run ops).2 } := by
  have happend := c.replay_ok_append ops []
  rw [List.append_nil] at happend
  rw [happend]
  simp [Cache.replay]

/-- **Reads and writes** together rise by the number of accesses. -/
theorem Cache.reads_add_writes_run {g : Geometry} {μ : Type u} {ν : Type v} [Store μ] [Evictor ν]
    (c : Cache g μ ν) (ops : List Access) :
    (c.run ops).2.counters.reads + (c.run ops).2.counters.writes =
      c.counters.reads + c.counters.writes + .ofNat ops.length := by
  rw [c.counters_run, ← readsOf_add_writesOf, UInt64.ofNat_add]
  show c.counters.reads + _ + (c.counters.writes + _) = _
  ac_rfl

namespace Trace

/-- **Made-up traces are read as drawn.**  Whatever the length, the span and the seed, whatever dice
are thrown, and in whatever windows the text comes, it is read as the accesses drawn, in order and
without a complaint: as many as asked for, each to a whole word below the span, and each value a
single digit.  A session that runs it serves just these accesses, has nothing to complain of, and
reports so many more. -/
theorem items_of_synthetic (σ : Type) [Dice σ] (length : Nat) (span : UInt32) (seed : UInt64)
    {ws : Windows} (hws : ws.flatten = (synthetic length span seed σ).toUTF8.data.toList) :
    let drawn := drawAccesses span length (Dice.ofSeed seed : σ)
    items ws = drawn.map .ok ∧
    drawn.length = length ∧
    (∀ op ∈ drawn, InSpan span op) ∧
    ∀ s : Session,
      let r := s.run (items ws)
      let c := (s.cache.run drawn).2
      r.error? = none ∧
      r.state = { s with cache := c, report := Report.ofCache s.report.name c } ∧
      r.state.report.reads + r.state.report.writes =
        s.cache.counters.reads + s.cache.counters.writes + .ofNat length := by
  intro drawn
  have hlength : drawn.length = length := length_drawAccesses span length _
  have hspan : ∀ op ∈ drawn, InSpan span op := fun op => inSpan_of_mem_drawAccesses
  have hitems : items ws = drawn.map .ok := items_of_lines drawn hws
  refine ⟨hitems, hlength, hspan, fun s => ?_⟩
  have hreplay := s.cache.replay_map_ok drawn
  rw [← hitems] at hreplay
  have hstate : (s.run (items ws)).state =
      { s with
        cache := (s.cache.run drawn).2
        report := Report.ofCache s.report.name (s.cache.run drawn).2 } := by
    simp only [Session.run, hreplay]
  refine ⟨?_, hstate, ?_⟩
  · simp only [Session.run, hreplay]
  · rw [hstate, ← hlength]
    exact s.cache.reads_add_writes_run drawn

/-- Three accesses, their text parted within the first address. -/
theorem items_of_synthetic_in_two_windows :
    let bytes := (synthetic 3 64 7).toUTF8.data.toList
    let ws : Windows := [bytes.take 5, bytes.drop 5]
    ws.flatten = bytes ∧ items ws = [.ok (.write 8 2), .ok (.read 16), .ok (.read 36)] := by
  intro bytes ws
  have hws : ws.flatten = bytes := by simp [ws]
  have hdrawn : drawAccesses 64 3 (Dice.ofSeed 7 : Keystream) = [.write 8 2, .read 16, .read 36] := by
    decide +kernel
  obtain ⟨hitems, -⟩ := items_of_synthetic Keystream 3 64 7 hws
  rw [hdrawn] at hitems
  exact ⟨hws, hitems⟩

end Trace

end SetAssoc

import SetAssoc.Proofs.Lines
import SetAssoc.Proofs.Serving
import SetAssoc.Session
import Mathlib.Data.List.TakeWhile
/-!
# What a trace does to a session

A trace is run up to its first bad line.  The lines before that line are all that happens to the
cache (`Cache.replay_itemsFrom`), and the report is then that on the cache as they leave it.
-/

namespace SetAssoc

universe u v

namespace Trace

/-! ## Good lines and bad lines -/

/-- The line, end and all, says something or nothing and is no reason for complaint.  The number is
of no account. -/
def isGood (line : List UInt8) : Bool := (said 0 (dropEnd line)).isOk

/-- The access that a good line says, if it says one. -/
def access? (line : List UInt8) : Option Access := (said 0 (dropEnd line)).toOption.join

/-- The complaint about line number `n`, if it is bad. -/
def problem? (n : Nat) (line : List UInt8) : Option TraceError :=
  match said n (dropEnd line) with
  | .ok _ => none
  | .error e => some e

theorem said_of_isGood {line : List UInt8} (h : isGood line = true) (n : Nat) :
    said n (dropEnd line) = .ok (access? line) := by
  rw [isGood] at h
  rw [access?]
  cases hsaid : said 0 (dropEnd line) with
  | error e => rw [hsaid] at h; cases h
  | ok op? => exact said_eq_ok_congr.mp hsaid

theorem said_of_not_isGood {line : List UInt8} (h : isGood line = false) (n : Nat) :
    ∃ e, said n (dropEnd line) = .error e ∧ problem? n line = some e := by
  cases hsaid : said n (dropEnd line) with
  | ok op? => rw [isGood, said_eq_ok_congr.mp hsaid] at h; cases h
  | error e => exact ⟨e, rfl, by rw [problem?, hsaid]⟩

/-- A complaint names the line, unless the line is not UTF-8. -/
theorem line?_of_problem? {n : Nat} {line : List UInt8} {e : TraceError}
    (h : problem? n line = some e) : e = .unreadable .notUtf8 ∨ e.line? = some n := by
  unfold problem? at h
  split at h
  · cases h
  · next hsaid =>
    cases h
    exact (said_eq_error hsaid).imp And.right And.right

/-- The line behind the leading good ones is the first bad one. -/
theorem getElem?_length_takeWhile (all : List (List UInt8)) :
    all[(all.takeWhile isGood).length]? = (all.dropWhile isGood).head? := by
  calc all[(all.takeWhile isGood).length]?
      = (all.takeWhile isGood ++ all.dropWhile isGood)[(all.takeWhile isGood).length]? := by
        rw [List.takeWhile_append_dropWhile]
    _ = (all.dropWhile isGood)[0]? := by
        rw [List.getElem?_append_right (Nat.le_refl _), Nat.sub_self]
    _ = (all.dropWhile isGood).head? := List.head?_eq_getElem?.symm

theorem isGood_of_head?_dropWhile {all : List (List UInt8)} {line : List UInt8}
    (h : (all.dropWhile isGood).head? = some line) : isGood line = false := by
  have hnot := List.head?_dropWhile_not isGood all
  rwa [h] at hnot

/-- **Good lines** add the accesses that they say, and count. -/
theorem itemsFrom_good_append (n : Nat) {good : List (List UInt8)}
    (h : ∀ line ∈ good, isGood line = true) (rest : List (List UInt8)) :
    itemsFrom n ((good ++ rest).map dropEnd) =
      (good.filterMap access?).map .ok ++ itemsFrom (n + good.length) (rest.map dropEnd) := by
  induction good generalizing n with
  | nil => rfl
  | cons line good ih =>
    obtain ⟨hline, hgood⟩ := List.forall_mem_cons.mp h
    have hcons : (line :: good).filterMap access? =
        (access? line).toList ++ good.filterMap access? := by
      rw [List.filterMap_cons]
      cases access? line <;> rfl
    rw [List.cons_append, List.map_cons, itemsFrom_cons_of_ok (said_of_isGood hline _),
      ih (n + 1) hgood, hcons, List.map_append, List.append_assoc, List.length_cons,
      Nat.add_right_comm, Nat.add_assoc n]

end Trace

open Trace

/-! ## Replays -/

section
variable {g : Geometry} {μ : Type u} {ν : Type v} [Store μ] [Evictor ν]

/-- Accesses before other items are served first. -/
theorem Cache.replay_ok_append (c : Cache g μ ν) (ops : List Access) (items : List Item) :
    let rest := (c.run ops).2.replay items
    c.replay (ops.map .ok ++ items) =
      { rest with events := (c.run ops).1.flatMap Reply.events ++ rest.events } := by
  induction ops generalizing c with
  | nil => rfl
  | cons op ops ih =>
    intro rest
    have hops := ih (c.access op).2
    simp only [List.map_cons, List.cons_append, Cache.replay, hops]
    simp only [rest, Cache.run_cons, List.flatMap_cons, List.append_assoc]

/-- **A replay** serves the accesses of the lines before the first bad one. -/
theorem Cache.replay_itemsFrom (c : Cache g μ ν) (all : List (List UInt8)) :
    let good := all.takeWhile isGood
    let r := c.run (good.filterMap access?)
    c.replay (itemsFrom 0 (all.map dropEnd)) =
      { events := r.1.flatMap Reply.events
        error? := all[good.length]?.bind (problem? (good.length + 1))
        state := r.2 } := by
  intro good r
  have hgood : ∀ line ∈ good, isGood line = true := fun _ => List.mem_takeWhile_imp
  have hall : good ++ all.dropWhile isGood = all := List.takeWhile_append_dropWhile
  have hitems := itemsFrom_good_append 0 hgood (all.dropWhile isGood)
  rw [hall, Nat.zero_add] at hitems
  rw [hitems, Cache.replay_ok_append, getElem?_length_takeWhile]
  cases hrest : all.dropWhile isGood with
  | nil => simp [itemsFrom, Cache.replay, r]
  | cons bad rest =>
    have hfirst : isGood bad = false := isGood_of_head?_dropWhile (by rw [hrest]; rfl)
    obtain ⟨e, hsaid, hproblem⟩ := said_of_not_isGood hfirst (good.length + 1)
    rw [List.map_cons, itemsFrom_cons, hsaid]
    simp [told, Cache.replay, hproblem, r]

end

/-! ## Sessions -/

/-- The lines before the first bad one are told by the lines up to it. -/
theorem takeWhile_eq_of_take_eq {α : Type} {p : α → Bool} {xs ys : List α}
    (h : ys.take ((xs.takeWhile p).length + 1) = xs.take ((xs.takeWhile p).length + 1)) :
    ys.takeWhile p = xs.takeWhile p := by
  induction xs generalizing ys with
  | nil =>
    obtain rfl : ys = [] := by simpa using h
    rfl
  | cons x xs ih =>
    obtain _ | ⟨y, ys⟩ := ys
    · simp at h
    · rw [List.take_succ_cons, List.take_succ_cons] at h
      obtain ⟨rfl, htail⟩ := List.cons.inj h
      cases hy : p y with
      | false =>
        have hneg : ¬ p y = true := by simp [hy]
        rw [List.takeWhile_cons_of_neg hneg, List.takeWhile_cons_of_neg hneg]
      | true =>
        rw [List.takeWhile_cons_of_pos hy] at htail ⊢
        rw [List.takeWhile_cons_of_pos hy, ih htail]

namespace Session

/-- **A trace in a session** comes to its good lines. -/
theorem run_items (s : Session) (ws : Windows) :
    let all := rawLines ws.flatten
    let good := all.takeWhile isGood
    let r := s.cache.run (good.filterMap access?)
    s.run (items ws) =
      let report := Report.ofCache s.report.name r.2
      let error? := all[good.length]?.bind (problem? (good.length + 1))
      { events := r.1.flatMap Reply.events ++
          if error?.isSome then [] else [.finished report.accesses report.name]
        error? := error?
        state := { s with cache := r.2, report } } := by
  intro all good r
  rw [items, lines_eq, run, Cache.replay_itemsFrom]
  dsimp only
  cases all[good.length]?.bind (problem? (good.length + 1)) <;> rfl

/-- **The good lines of a trace** are all that counts.  The session serves their accesses, and its
report is on the cache as they leave it; there is a complaint if another line follows them, and it
is the one about that line.  Run by themselves, the good lines come to the same session.  What
stands behind the first bad line makes no difference. -/
theorem run_items_good (s : Session) (ws : Windows) :
    let all := rawLines ws.flatten
    let good := all.takeWhile isGood
    let c := (s.cache.run (good.filterMap access?)).2
    let r := s.run (items ws)
    r.state = { s with cache := c, report := Report.ofCache s.report.name c } ∧
      r.error? = all[good.length]?.bind (problem? (good.length + 1)) ∧
      (r.error? = none ↔ ∀ line ∈ all, isGood line = true) ∧
      (∀ e, r.error? = some e → e = .unreadable .notUtf8 ∨ e.line? = some (good.length + 1)) ∧
      (s.run (items [good.flatten])).error? = none ∧
      (s.run (items [good.flatten])).state = r.state ∧
      ∀ ws' : Windows, (rawLines ws'.flatten).take (good.length + 1) = all.take (good.length + 1) →
        s.run (items ws') = r := by
  intro all good c r
  have hr : r = _ := run_items s ws
  have herror : r.error? = all[good.length]?.bind (problem? (good.length + 1)) := by rw [hr]
  have hstate : r.state = { s with cache := c, report := Report.ofCache s.report.name c } := by
    rw [hr]
  -- the good lines are a trace whose lines are all good
  have hgood : ∀ line ∈ good, isGood line = true := fun _ => List.mem_takeWhile_imp
  have hlines : rawLines [good.flatten].flatten = good := by
    have htake : all.take good.length = good :=
      (List.prefix_iff_eq_take.mp (List.takeWhile_prefix isGood)).symm
    rw [List.flatten_singleton, ← htake]
    exact rawLines_take _ _
  have hall : good.takeWhile isGood = good := List.takeWhile_eq_self_iff.mpr hgood
  -- so it runs to its end
  have halone := run_items s [good.flatten]
  simp only [hlines, hall, List.getElem?_length, Option.bind_none] at halone
  refine ⟨hstate, herror, ?_, ?_, ?_, ?_, ?_⟩
  · rw [herror, getElem?_length_takeWhile]
    cases hbad : (all.dropWhile isGood).head? with
    | none =>
      have hnil : all.dropWhile isGood = [] := List.head?_eq_none_iff.mp hbad
      simpa using List.dropWhile_eq_nil_iff.mp hnil
    | some bad =>
      have hfirst := isGood_of_head?_dropWhile hbad
      obtain ⟨e, -, hproblem⟩ := said_of_not_isGood hfirst (good.length + 1)
      have hmem : bad ∈ all := List.dropWhile_subset _ (List.mem_of_mem_head? hbad)
      rw [Option.bind_some, hproblem]
      constructor
      · intro h
        cases h
      · intro h
        rw [h bad hmem] at hfirst
        cases hfirst
  · intro e he
    rw [herror] at he
    obtain ⟨line, -, hproblem⟩ := Option.bind_eq_some_iff.mp he
    exact line?_of_problem? hproblem
  · rw [halone]
  · rw [halone, hstate]
  · -- the lines up to the first bad one settle both which lines are good and what is wrong
    intro ws' htake
    have hgood' : (rawLines ws'.flatten).takeWhile isGood = good := takeWhile_eq_of_take_eq htake
    have hnext : (rawLines ws'.flatten)[good.length]? = all[good.length]? := by
      have hlt := Nat.lt_succ_self good.length
      rw [← List.getElem?_take_of_lt hlt, htake, List.getElem?_take_of_lt hlt]
    rw [hr, run_items s ws', hgood', hnext]

end Session

end SetAssoc

import SetAssoc.Proofs.Calls
import SetAssoc.Proofs.Covering
/-!
# Whole blocks in the record

The record of a store is a list of calls, but what passes is whole blocks: as many calls as a block
has words make one `Transfer`.  Cutting a record into transfers is possible in one way only
(`Transfer.group_flatMap_calls`).  An access makes none, or fetches its block, or writes another
block of its set back and then fetches its own (`Sound.passing`).  Together with the numbers of the
accesses the transfers of a run are its `journal`, and the record is the journal without the
numbers.
-/

namespace SetAssoc

universe u v

/-- The word that passes in a call. -/
def Call.word : Call → UInt32
  | .read _ w => w
  | .write _ w => w

/-! ## Transfers -/

/-- A whole block that passes between a cache and its store. -/
inductive Transfer (g : Geometry) where
  /-- The block is fetched. -/
  | fill (start : UInt32) (words : Vector UInt32 g.blockWords)
  /-- The block is written back. -/
  | writeBack (start : UInt32) (words : Vector UInt32 g.blockWords)
deriving DecidableEq, Repr

namespace Transfer

variable {g : Geometry}

/-- The address of the first word. -/
def start : Transfer g → UInt32
  | fill start _ => start
  | writeBack start _ => start

/-- The call for the word at an offset. -/
def call : Transfer g → Fin g.blockWords → Call
  | fill start words, k => .read (start + 4 * .ofNat k.val) (words.get k)
  | writeBack start words, k => .write (start + 4 * .ofNat k.val) (words.get k)

/-- The calls of a transfer: word by word, in ascending order. -/
def calls (t : Transfer g) : List Call := (List.finRange g.blockWords).map t.call

/-- The words of a block that goes back. -/
def returned? : Transfer g → Option (Vector UInt32 g.blockWords)
  | fill _ _ => none
  | writeBack _ words => some words

/-- A first call, and the words of the first block. -/
def ofCalls (first : Call) (calls : List Call) : Transfer g :=
  let words : Vector UInt32 g.blockWords :=
    .ofFn fun k => (calls[k.val]?.map Call.word).getD 0
  match first with
  | .read a _ => fill a words
  | .write a _ => writeBack a words

/-- Calls, cut into transfers. -/
def group (g : Geometry) : List Call → List (Transfer g)
  | [] => []
  | call :: calls => ofCalls call (call :: calls) :: group g ((call :: calls).drop g.blockWords)
termination_by calls => calls.length
decreasing_by
  have hpos := g.blockWords_pos
  simp only [List.length_drop, List.length_cons]
  omega

@[simp] theorem length_calls (t : Transfer g) : t.calls.length = g.blockWords := by
  simp [calls]

theorem getElem?_calls (t : Transfer g) (k : Fin g.blockWords) :
    t.calls[(k : Nat)]? = some (t.call k) := by
  simp [calls]

/-- The first call and the words tell which transfer it is. -/
theorem ofCalls_calls_append (t : Transfer g) (rest : List Call) :
    ofCalls (t.call ⟨0, g.blockWords_pos⟩) (t.calls ++ rest) = t := by
  have hget : ∀ k : Fin g.blockWords, (t.calls ++ rest)[(k : Nat)]? = some (t.call k) := by
    intro k
    rw [List.getElem?_append_left (by rw [length_calls]; exact k.isLt), getElem?_calls]
  have hfirst : ∀ start : UInt32, start + 4 * .ofNat 0 = start := by
    intro start
    show start + 4 * 0 = start
    rw [UInt32.mul_zero, UInt32.add_zero]
  have hwords : ∀ words : Vector UInt32 g.blockWords, (∀ k, (t.call k).word = words.get k) →
      (Vector.ofFn fun k : Fin g.blockWords =>
        ((t.calls ++ rest)[k.val]?.map Call.word).getD 0) = words := by
    intro words h
    apply Vector.ext
    intro k hk
    rw [Vector.getElem_ofFn, hget ⟨k, hk⟩]
    exact h ⟨k, hk⟩
  cases t with
  | fill start words =>
    show fill (start + 4 * .ofNat 0) _ = _
    rw [hfirst, hwords words fun k => rfl]
  | writeBack start words =>
    show writeBack (start + 4 * .ofNat 0) _ = _
    rw [hfirst, hwords words fun k => rfl]

theorem group_calls_append (t : Transfer g) (rest : List Call) :
    group g (t.calls ++ rest) = t :: group g rest := by
  have hfirst : (t.calls ++ rest)[0]? = some (t.call ⟨0, g.blockWords_pos⟩) := by
    rw [List.getElem?_append_left (by rw [length_calls]; exact g.blockWords_pos)]
    exact t.getElem?_calls ⟨0, g.blockWords_pos⟩
  have hdrop : (t.calls ++ rest).drop g.blockWords = rest := by
    rw [← t.length_calls, List.drop_left]
  have hmade := t.ofCalls_calls_append rest
  generalize t.calls ++ rest = all at hfirst hdrop hmade
  cases all with
  | nil => cases hfirst
  | cons call all =>
    cases hfirst
    rw [group, hdrop, hmade]

/-- **Calls can be cut into transfers** in one way only. -/
theorem group_flatMap_calls (ts : List (Transfer g)) : group g (ts.flatMap calls) = ts := by
  induction ts with
  | nil =>
    show group g [] = []
    rw [group]
  | cons t ts ih => rw [List.flatMap_cons, group_calls_append, ih]

end Transfer

/-- Blocks that pass, each with the number of the access in which it does. -/
abbrev Journal (g : Geometry) := List (Nat × Transfer g)

/-! ## The transfers of an access -/

namespace Geometry

variable (g : Geometry)

theorem reading_eq_calls (a : UInt32) (words : Vector UInt32 g.blockWords) :
    g.reading a words = (Transfer.fill (g.blockStart a) words).calls := rfl

theorem writing_eq_calls {a : UInt32} {b : Block g.blockWords} (htag : b.tag = (g.locate a).tag) :
    g.writing (g.locate a).index b = (Transfer.writeBack (g.blockStart a) b.words).calls := by
  apply List.map_congr_left
  intro k _
  show Call.write (Location.address ⟨k, (g.locate a).index, b.tag⟩) _ = .write _ _
  rw [htag, g.address_eq_blockStart_add]

end Geometry

namespace Cache

variable {g : Geometry} {μ : Type u} {ν : Type v} [Store μ] [Evictor ν]

/-- The blocks that pass while the block of an address is settled. -/
inductive Passing (c : Cache g (Recorded μ) ν) (a : UInt32) :
    Settled g (Recorded μ) ν → List (Transfer g) → Prop
  /-- The block is there, and nothing passes. -/
  | hit (way : Fin g.ways) (found : findTag (c.home a) (g.locate a).tag = .hit way) :
      Passing c a
        { way
          cycles := hitCycles
          events := [.hit a (g.locate a).index way]
          cache := { c with counters := c.counters.hit } } []
  /-- It is fetched, and nothing has to go back for it. -/
  | fetched (way : Fin g.ways) (evictor : ν) (room : c.Room a way evictor)
      (fresh : ((c.home a).get way).valid = true → ((c.home a).get way).dirty = false) :
      Passing c a ({ c with evictor }.replace a way)
        [.fill (g.blockStart a) (fetch g a c.store).1.words]
  /-- It is fetched, after the block around another address of the set went back. -/
  | exchanged (way : Fin g.ways) (evictor : ν) (room : c.Room a way evictor) (x : UInt32)
      (index : (g.locate x).index = (g.locate a).index)
      (covers : c.Covers ((c.home a).get way) x)
      (dirty : ((c.home a).get way).dirty = true) :
      Passing c a ({ c with evictor }.replace a way)
        [.writeBack (g.blockStart x) ((c.home a).get way).words,
          .fill (g.blockStart a) (fetch g a (c.vacate a way)).1.words]

/-- The blocks that pass in an access. -/
def passed (c : Cache g (Recorded μ) ν) (op : Access) : List (Transfer g) :=
  Transfer.group g ((c.access op).2.store.calls.toList.drop c.store.calls.size)

theorem Sound.exists_passing {c : Cache g (Recorded μ) ν} (hc : c.Sound) (a : UInt32) :
    ∃ ts, c.Passing a (c.settle a) ts ∧
      (c.settle a).cache.store.calls.toList =
        c.store.calls.toList ++ ts.flatMap Transfer.calls := by
  have hs := c.settling a
  generalize c.settle a = s at hs
  cases hs with
  | hit way found => exact ⟨[], .hit way found, (List.append_nil _).symm⟩
  | miss way evictor room =>
    have hcalls := calls_replace { c with evictor } a way
    by_cases hstale : ((c.home a).get way).valid = true ∧ ((c.home a).get way).dirty = true
    · obtain ⟨x, hindex, hcovers⟩ := hc.exists_covers (get_mem_toList (c.home a) way) hstale.1
      refine ⟨_, .exchanged way evictor room x hindex hcovers hstale.2, ?_⟩
      have hexchange : Cache.exchange { c with evictor } a way =
          g.writing (g.locate x).index ((c.home a).get way) ++
            g.reading a (fetch g a (c.vacate a way)).1.words := by
        rw [hindex]
        exact congrArg (· ++ _) (if_pos (Bool.and_eq_true_iff.mpr hstale))
      rw [hcalls, hexchange, g.writing_eq_calls hcovers.2.2, g.reading_eq_calls, List.flatMap_cons,
        List.flatMap_singleton]
    · have hfresh : ((c.home a).get way).valid = true → ((c.home a).get way).dirty = false := by
        intro hvalid
        rw [← Bool.not_eq_true]
        exact fun hdirty => hstale ⟨hvalid, hdirty⟩
      refine ⟨_, .fetched way evictor room hfresh, ?_⟩
      have hexchange : Cache.exchange { c with evictor } a way =
          g.reading a (fetch g a (c.vacate a way)).1.words := by
        exact congrArg (· ++ _) (if_neg fun h => hstale (Bool.and_eq_true_iff.mp h))
      rw [hcalls, hexchange, vacate_of_fresh hfresh, g.reading_eq_calls, List.flatMap_singleton]

/-- **What passes in an access** is what its part of the record is cut into. -/
theorem Sound.passing {c : Cache g (Recorded μ) ν} (hc : c.Sound) (op : Access) :
    c.Passing op.address (c.settle op.address) (c.passed op) ∧
      (c.access op).2.store.calls.toList =
        c.store.calls.toList ++ (c.passed op).flatMap Transfer.calls := by
  obtain ⟨ts, hpassing, hcalls⟩ := hc.exists_passing op.address
  have hpassed : c.passed op = ts := by
    show Transfer.group g ((c.settle op.address).cache.store.calls.toList.drop _) = _
    rw [hcalls, ← Array.length_toList, List.drop_left, Transfer.group_flatMap_calls]
  rw [hpassed]
  exact ⟨hpassing, hcalls⟩

/-! ## The transfers of a run -/

/-- The blocks that pass in a run whose first access has number `n`. -/
def journalFrom (n : Nat) (c : Cache g (Recorded μ) ν) : List Access → Journal g
  | [] => []
  | op :: ops => (c.passed op).map (n, ·) ++ journalFrom (n + 1) (c.access op).2 ops

/-- The blocks that pass in a run. -/
def journal (c : Cache g (Recorded μ) ν) (ops : List Access) : Journal g :=
  c.journalFrom 0 ops

theorem journalFrom_concat (n : Nat) (c : Cache g (Recorded μ) ν) (past : List Access)
    (op : Access) :
    c.journalFrom n (past ++ [op]) =
      c.journalFrom n past ++ ((c.run past).2.passed op).map (n + past.length, ·) := by
  induction past generalizing n c with
  | nil => exact List.append_nil _
  | cons first past ih =>
    show (c.passed first).map (n, ·) ++ journalFrom (n + 1) (c.access first).2 (past ++ [op]) = _
    rw [ih, ← List.append_assoc, List.length_cons, Nat.add_assoc, Nat.add_comm 1]
    rfl

/-- One more access adds what passes in it. -/
theorem journal_concat (c : Cache g (Recorded μ) ν) (past : List Access) (op : Access) :
    c.journal (past ++ [op]) =
      c.journal past ++ ((c.run past).2.passed op).map (past.length, ·) := by
  rw [journal, journalFrom_concat, Nat.zero_add]
  rfl

theorem Sound.calls_run_from {c : Cache g (Recorded μ) ν} (hc : c.Sound) (n : Nat)
    (ops : List Access) :
    (c.run ops).2.store.calls.toList =
      c.store.calls.toList ++ ((c.journalFrom n ops).map Prod.snd).flatMap Transfer.calls := by
  induction ops generalizing n c with
  | nil => exact (List.append_nil _).symm
  | cons op ops ih =>
    have hunnumbered : ((c.passed op).map (n, ·)).map Prod.snd = c.passed op := by
      rw [List.map_map]
      exact List.map_id _
    rw [run_cons, ih (hc.access op) (n + 1), (hc.passing op).2, journalFrom, List.map_append,
      hunnumbered, List.flatMap_append, List.append_assoc]

/-- **The record of a run** is its journal, without the numbers of the accesses. -/
theorem calls_run (g : Geometry) (policy : Policy) (m : μ) (e : ν) (ops : List Access) :
    let c := empty g policy ({ inner := m } : Recorded μ) e
    (c.run ops).2.store.calls.toList =
      ((c.journal ops).map Prod.snd).flatMap Transfer.calls :=
  (sound_empty g policy _ e).calls_run_from 0 ops

end Cache

end SetAssoc

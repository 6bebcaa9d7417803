import SetAssoc.Proofs.Handover
import SetAssoc.Proofs.Recording
import Mathlib
/-!
# Changed or not

A block is dirty exactly if some word of it was changed since the block was fetched, and that needs
a write of another value than the one held: `Alters`.  A miss brings a clean block and is judged
against the words fetched, so one access sets the bit of its block exactly if it alters the block
(`Sound.dirty_access`), and the history of a block begins anew with each fetch.

A write that alters nothing might as well have been a read.  `hush` makes it one.  The run after
that can be told from the run before by the numbers of reads and writes alone (`run_hush`): these
numbers are written down and never looked at.
-/

namespace SetAssoc

universe u u' v

/-- An access leaves a block dirty if it was so before, or if a word is changed. -/
theorem Access.dirty_leave {n : Nat} {op : Access} {b : Block n} {k : Fin n} :
    (op.leave b k).dirty = true ↔
      b.dirty = true ∨ ∃ x w, op = .write x w ∧ b.words.get k ≠ w := by
  cases op with
  | read x => simp [leave]
  | write x w =>
    show (b.store k w).dirty = true ↔ _
    by_cases h : b.words.get k = w
    · have hsame : b.store k w = b := if_pos h
      simp [hsame, h]
    · have hchanged : (b.store k w).dirty = true := by
        rw [Block.store]
        split
        · next hsame => exact absurd hsame h
        · rfl
      simp [hchanged, h]

namespace Cache

variable {g : Geometry} {μ : Type u} {ν : Type v}

/-! ## Writes that change a word -/

section Alters

variable [Store μ] [Evictor ν]

/-- The access stores a value other than the one that its block, in the cache by then, holds. -/
def Alters (c : Cache g μ ν) (op : Access) : Prop :=
  ∃ x w b, op = .write x w ∧ (c.settle x).cache.Covers b x ∧ b.words.get (g.locate x).offset ≠ w

/-- The block that an access alters is the one in the way that was settled on. -/
theorem Sound.alters_iff {c : Cache g μ ν} (hc : c.Sound) (op : Access) :
    c.Alters op ↔
      ∃ x w, op = .write x w ∧
        (((c.settle op.address).cache.home op.address).get (c.settle op.address).way).words.get
          (g.locate op.address).offset ≠ w := by
  have hs := c.settling op.address
  have hcovers := covers_of_bears hs.bears
  constructor
  · rintro ⟨x, w, b, rfl, hb, hne⟩
    refine ⟨x, w, rfl, ?_⟩
    rw [← (hc.settling hs).eq_of_covers hb hcovers]
    exact hne
  · rintro ⟨x, w, rfl, hne⟩
    exact ⟨x, w, _, rfl, hcovers, hne⟩

/-- A write alters its block exactly if a read would have been answered with another word. -/
theorem Sound.alters_write_iff {c : Cache g μ ν} (hc : c.Sound) (a w : UInt32) :
    c.Alters (.write a w) ↔ (c.access (.read a)).1.word ≠ w := by
  rw [hc.alters_iff]
  constructor
  · rintro ⟨x, w', hop, hne⟩
    cases hop
    exact hne
  · intro hne
    exact ⟨a, w, rfl, hne⟩

/-- **Where a dirty bit comes from.**  A block seen after an access was fetched by it, and is dirty
exactly if the access altered it; or it was there before, and is dirty exactly if it was so then or
the access went to it and altered it. -/
theorem Sound.dirty_access {c : Cache g μ ν} (hc : c.Sound) {op : Access} {a : UInt32}
    {b : Block g.blockWords} (hb : (c.access op).2.Covers b a) :
    (g.blockStart op.address = g.blockStart a ∧ ¬ c.Holds op.address ∧
        (b.dirty = true ↔ c.Alters op)) ∨
      ∃ old, c.Covers old a ∧
        (b.dirty = true ↔
          old.dirty = true ∨ g.blockStart op.address = g.blockStart a ∧ c.Alters op) := by
  have hs := c.settling op.address
  have halters := hc.alters_iff op
  rw [access_eq, (hc.settling hs).covers_serveAt_iff hs.bears] at hb
  generalize c.settle op.address = s at hs halters hb
  by_cases hblock : g.blockStart a = g.blockStart op.address
  · rw [if_pos hblock] at hb
    rw [hb, Access.dirty_leave, ← halters]
    cases hs with
    | hit way found =>
      refine Or.inr ⟨(c.home op.address).get way, ?_, ?_⟩
      · exact (c.covers_congr hblock _).mpr (covers_of_bears (bears_of_findTag_hit found))
      · rw [and_iff_right hblock.symm]
    | miss way evictor room =>
      refine Or.inl ⟨hblock.symm, room.not_holds, ?_⟩
      -- a block just fetched is clean
      rw [way_replace, home_replace, get_setAt_self]
      exact or_iff_right Bool.false_ne_true
  · rw [if_neg hblock] at hb
    have hother : ∀ p : Prop, ¬ (g.blockStart op.address = g.blockStart a ∧ p) :=
      fun p h => hblock h.1.symm
    simp only [hother, or_false]
    cases hs with
    | hit way found => exact Or.inr ⟨b, hb, Iff.rfl⟩
    | miss way evictor room =>
      rw [Sound.covers_replace_iff (c := { c with evictor }) hc room.not_covers way,
        if_neg hblock] at hb
      exact Or.inr ⟨b, hb.1, Iff.rfl⟩

/-! ## Changes in a run -/

/-- Access number `n` of a run, or one after it, altered the block around an address. -/
def AlteredSince (c : Cache g μ ν) (ops : List Access) (a : UInt32) (n : Nat) : Prop :=
  ∃ k op, n ≤ k ∧ ops[k]? = some op ∧ g.blockStart op.address = g.blockStart a ∧
    (c.run (ops.take k)).2.Alters op

theorem not_alteredSince_length (c : Cache g μ ν) (ops : List Access) (a : UInt32) :
    ¬ c.AlteredSince ops a ops.length := by
  rintro ⟨k, op, hk, hop, -⟩
  rw [List.getElem?_eq_none hk] at hop
  cases hop

theorem alteredSince_concat (c : Cache g μ ν) {past : List Access} {op : Access} {a : UInt32}
    {n : Nat} (hn : n ≤ past.length) :
    c.AlteredSince (past ++ [op]) a n ↔
      c.AlteredSince past a n ∨
        g.blockStart op.address = g.blockStart a ∧ (c.run past).2.Alters op := by
  constructor
  · rintro ⟨k, op', hk, hop, hblock, halters⟩
    have hlt := (List.getElem?_eq_some_iff.mp hop).1
    rw [List.length_append, List.length_singleton] at hlt
    rcases Nat.lt_or_eq_of_le (Nat.le_of_lt_succ hlt) with hlt | rfl
    · rw [List.getElem?_append_left hlt] at hop
      rw [List.take_append_of_le_length (Nat.le_of_lt hlt)] at halters
      exact Or.inl ⟨k, op', hk, hop, hblock, halters⟩
    · rw [List.getElem?_concat_length] at hop
      cases hop
      rw [List.take_left] at halters
      exact Or.inr ⟨hblock, halters⟩
  · rintro (⟨k, op', hk, hop, hblock, halters⟩ | ⟨hblock, halters⟩)
    · have hlt := (List.getElem?_eq_some_iff.mp hop).1
      refine ⟨k, op', hk, ?_, hblock, ?_⟩
      · rw [List.getElem?_append_left hlt, hop]
      · rw [List.take_append_of_le_length (Nat.le_of_lt hlt)]
        exact halters
    · refine ⟨past.length, op, hn, List.getElem?_concat_length, hblock, ?_⟩
      rw [List.take_left]
      exact halters

/-- **The dirty bit of a block** tells whether it was altered since it was last fetched. -/
theorem dirty_iff_alteredSince (g : Geometry) (policy : Policy) (m : μ) (e : ν) (ops : List Access)
    {a : UInt32} {b : Block g.blockWords} (hb : ((empty g policy m e).run ops).2.Covers b a) :
    ∃ n, g.LastFetchedAt ops ((empty g policy m e).run ops).1 a n ∧
      (b.dirty = true ↔ (empty g policy m e).AlteredSince ops a n) := by
  induction ops using List.reverseRecOn generalizing b with
  | nil => exact absurd ((holds_iff_covers _ a).mpr ⟨b, hb⟩) (not_holds_empty g policy m e a)
  | append_singleton past op ih =>
    have hlen : ((empty g policy m e).run past).1.length = past.length := length_run _ past
    have hsound := sound_run g policy m e past
    have hcycles := ((empty g policy m e).run past).2.cycles_access op
    rw [run_concat] at hb ⊢
    rcases hsound.dirty_access hb with ⟨hblock, hmiss, hdirty⟩ | ⟨old, hold, hdirty⟩
    · -- the history of the block begins with this access
      rw [if_neg hmiss] at hcycles
      refine ⟨past.length, Geometry.lastFetchedAt_concat_of_miss hlen hblock hcycles, ?_⟩
      rw [hdirty, alteredSince_concat _ (Nat.le_refl _), and_iff_right hblock]
      exact (or_iff_right (not_alteredSince_length _ past a)).symm
    · obtain ⟨n, hn, hsince⟩ := ih hold
      refine ⟨n, hn.concat hlen ?_, ?_⟩
      · rintro ⟨hblock, hcost⟩
        have hholds := (holds_iff_covers _ a).mpr ⟨old, hold⟩
        rw [hcycles, if_pos ((holds_congr _ hblock).mpr hholds)] at hcost
        cases hcost
      · rw [hdirty, hsince, alteredSince_concat _ (Nat.le_of_lt hn.1.lt_length)]

end Alters

/-! ## Other numbers of reads and writes -/

/-- The cache with other numbers of reads and writes. -/
def tally (c : Cache g μ ν) (reads writes : UInt64) : Cache g μ ν :=
  { c with counters := { c.counters with reads, writes } }

/-- What `settle` found or did, with other numbers of reads and writes. -/
def Settled.tally (s : Settled g μ ν) (reads writes : UInt64) : Settled g μ ν :=
  { s with cache := s.cache.tally reads writes }

variable [Store μ] [Evictor ν]

theorem settle_tally (c : Cache g μ ν) (reads writes : UInt64) (a : UInt32) :
    (c.tally reads writes).settle a = (c.settle a).tally reads writes := by
  have hset : (c.tally reads writes).sets[(g.locate a).index] = c.sets[(g.locate a).index] := rfl
  simp only [settle, hset]
  cases findTag c.sets[(g.locate a).index] (g.locate a).tag with
  | hit way => rfl
  | free way => rfl
  | full => rfl

/-- **An access** does not look at the numbers of reads and writes. -/
theorem access_tally (c : Cache g μ ν) (reads writes : UInt64) (op : Access) :
    ∃ reads' writes', (c.tally reads writes).access op =
      ((c.access op).1, (c.access op).2.tally reads' writes') := by
  cases op with
  | read a =>
    refine ⟨reads + 1, writes, ?_⟩
    simp only [access, Access.address, settle_tally]
    rfl
  | write a w =>
    refine ⟨reads, writes + 1, ?_⟩
    simp only [access, Access.address, settle_tally]
    rfl

/-! ## Writes as reads -/

/-- The access, with a write of the word that is there already made a read. -/
def hushed (c : Cache g μ ν) (op : Access) : Access :=
  match op with
  | .read a => .read a
  | .write a w => if (c.access (.read a)).1.word = w then .read a else .write a w

/-- The accesses of a run, with every write of the word that is there by then made a read. -/
def hush (c : Cache g μ ν) : List Access → List Access
  | [] => []
  | op :: ops => c.hushed op :: (c.access op).2.hush ops

/-- **Reading a word** or storing it again comes to the same. -/
theorem access_hushed (c : Cache g μ ν) (op : Access) :
    ∃ reads writes, c.access (c.hushed op) =
      ((c.access op).1, (c.access op).2.tally reads writes) := by
  cases op with
  | read a => exact ⟨_, _, rfl⟩
  | write a w =>
    rw [hushed]
    split
    · next hword =>
      have haddr : (Access.read a).address = (Access.write a w).address := rfl
      have hleave : (Access.read a).leave (((c.settle a).cache.home a).get (c.settle a).way)
          (g.locate a).offset = (Access.write a w).leave
            (((c.settle a).cache.home a).get (c.settle a).way) (g.locate a).offset :=
        (if_pos hword).symm
      have hanswer : (c.access (.read a)).1 = (c.access (.write a w)).1 := by
        rw [access_fst, access_fst]
        exact answer_congr haddr hleave _ _
      have hrow := servedRow_congr haddr hleave
      refine ⟨(c.settle a).cache.counters.reads + 1, (c.settle a).cache.counters.writes, ?_⟩
      refine Prod.ext_iff.mpr ⟨hanswer, ?_⟩
      rw [access_eq, access_eq]
      simp only [serveAt, Access.address, hrow]
      rfl
    · exact ⟨_, _, rfl⟩

/-- A run with such writes made reads, from any numbers of reads and writes on. -/
theorem run_hush_tally (c : Cache g μ ν) (reads writes : UInt64) (ops : List Access) :
    ∃ reads' writes', (c.tally reads writes).run (c.hush ops) =
      ((c.run ops).1, (c.run ops).2.tally reads' writes') := by
  induction ops generalizing c reads writes with
  | nil => exact ⟨reads, writes, rfl⟩
  | cons op ops ih =>
    obtain ⟨_, _, hquiet⟩ := c.access_hushed op
    obtain ⟨reads', writes', haccess⟩ := c.access_tally reads writes (c.hushed op)
    obtain ⟨reads'', writes'', hrest⟩ := ih (c.access op).2 reads' writes'
    have hstep : (c.tally reads writes).access (c.hushed op) =
        ((c.access op).1, (c.access op).2.tally reads' writes') := by
      rw [haccess, hquiet]
      rfl
    exact ⟨reads'', writes'', by rw [hush, run_cons, run_cons, hstep, hrest]⟩

/-- **A run with such writes made reads** is answered the same and leaves the same cache behind,
but for the numbers of reads and writes. -/
theorem run_hush (c : Cache g μ ν) (ops : List Access) :
    ∃ reads writes, c.run (c.hush ops) = ((c.run ops).1, (c.run ops).2.tally reads writes) :=
  c.run_hush_tally c.counters.reads c.counters.writes ops

/-- Stores that answer alike have the same writes made reads. -/
theorem hush_carry {μ' : Type u'} [Store μ'] {f : μ → μ'} (hf : Store.Simulates f)
    (c : Cache g μ ν) (ops : List Access) : (c.carry f).hush ops = c.hush ops := by
  have hone : ∀ (c : Cache g μ ν) op, (c.carry f).hushed op = c.hushed op := by
    intro c op
    cases op with
    | read a => rfl
    | write a w => simp only [hushed, access_carry hf]
  induction ops generalizing c with
  | nil => rfl
  | cons op ops ih => rw [hush, hush, hone, access_carry hf, ih]

theorem hush_recorded (c : Cache g μ ν) (ops : List Access) : c.recorded.hush ops = c.hush ops :=
  (hush_carry Recorded.simulates_inner c.recorded ops).symm

/-- **Dirty exactly on change.**  After any run of a fresh cache, every block that it holds is seen
from some address of its set; and from whichever address it is seen, it is dirty exactly if some
access altered it, from the one on that last fetched it.  If every write of a word that a read would
have been answered with at that point is made such a read, all answers stay the same, and so do all
sets, the store and all calls to it, the evictor, and all counters but those of reads and writes. -/
theorem changes_of_run (g : Geometry) (policy : Policy) (m : μ) (e : ν) (ops : List Access) :
    let fresh := empty g policy m e
    let r := fresh.run ops
    let quiet := fresh.hush ops
    let r' := fresh.run quiet
    (∀ s, ∀ b ∈ (r.2.sets.get s).toList, b.valid = true →
      ∃ a, (g.locate a).index = s ∧ r.2.Covers b a) ∧
    (∀ a b, r.2.Covers b a →
      ∃ n, g.LastFetchedAt ops r.1 a n ∧ (b.dirty = true ↔ fresh.AlteredSince ops a n)) ∧
    r'.1 = r.1 ∧
    r'.2.sets = r.2.sets ∧
    r'.2.store = r.2.store ∧
    (fresh.recorded.run quiet).2.store.calls = (fresh.recorded.run ops).2.store.calls ∧
    r'.2.evictor = r.2.evictor ∧
    r'.2.counters.hits = r.2.counters.hits ∧
    r'.2.counters.misses = r.2.counters.misses ∧
    r'.2.counters.writeBacks = r.2.counters.writeBacks ∧
    r'.2.counters.cycles = r.2.counters.cycles := by
  intro fresh r quiet r'
  have hsound : r.2.Sound := sound_run g policy m e ops
  obtain ⟨reads, writes, hrun⟩ := fresh.run_hush ops
  obtain ⟨_, _, hrecorded⟩ := fresh.recorded.run_hush ops
  rw [fresh.hush_recorded] at hrecorded
  refine ⟨fun s b hb hvalid => hsound.exists_covers hb hvalid,
    fun a b hb => dirty_iff_alteredSince g policy m e ops hb, ?_⟩
  have hr' : r' = (r.1, r.2.tally reads writes) := hrun
  rw [hr', hrecorded]
  exact ⟨rfl, rfl, rfl, rfl, rfl, rfl, rfl, rfl, rfl⟩

/-- Room for a single word.  It is changed, evicted, fetched again and written as it is, which might
have been a read; it is dirty again by the last access. -/
theorem changes_of_run_refetched :
    let g : Geometry := ⟨1, 0, 2, by decide, by decide, by decide⟩
    let fresh := empty g .leastRecentlyUsed ({} : Memory) (⟨[]⟩ : Rota)
    let ops : List Access := [.write 0 7, .read 4, .write 0 7, .write 0 1]
    fresh.hush ops = [.write 0 7, .read 4, .read 0, .write 0 1] ∧
      (fresh.run (fresh.hush ops)).2.counters.writeBacks = 1 ∧
      ∃ b, (fresh.run ops).2.Covers b 0 ∧ b.dirty = true := by
  intro g fresh ops
  obtain ⟨-, hchanges, -, -, -, -, -, -, -, hbacks, -⟩ :=
    changes_of_run g .leastRecentlyUsed ({} : Memory) (⟨[]⟩ : Rota) ops
  have hback : (fresh.run ops).2.counters.writeBacks = 1 := by decide +kernel
  have hword : ((fresh.run [.write 0 7, .read 4, .write 0 7]).2.access (.read 0)).1.word = 7 := by
    decide +kernel
  have hsound : (fresh.run [.write 0 7, .read 4, .write 0 7]).2.Sound := sound_run g _ _ _ _
  have halters : (fresh.run [.write 0 7, .read 4, .write 0 7]).2.Alters (.write 0 1) := by
    rw [hsound.alters_write_iff, hword]
    decide
  have hheld : (fresh.run ops).2.Holds 0 :=
    (hsound.holds_access_iff (.write 0 1) 0).mpr (Or.inl (by decide))
  obtain ⟨b, hb⟩ := (holds_iff_covers _ _).mp hheld
  obtain ⟨n, hn, hdirty⟩ := hchanges 0 b hb
  have hlt : n < 4 := hn.1.lt_length
  have hsince : fresh.AlteredSince ops 0 n :=
    ⟨3, .write 0 1, Nat.le_of_lt_succ hlt, rfl, by decide, halters⟩
  exact ⟨by decide +kernel, hbacks.trans hback, b, hb, hdirty.mpr hsince⟩

end Cache

end SetAssoc

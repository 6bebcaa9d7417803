import SetAssoc.Proofs.Calls
import SetAssoc.Proofs.Recording
import SetAssoc.Proofs.Traffic
import Mathlib
/-!
# What a record tells

What a cache asks of its store can be told without a record: it is decided by the cache and what the
store would answer (`Cache.asked`).  A record says the same.  It may be taken away between any two
accesses; the pieces, laid end to end, are all that was asked, in order (`watch_eq`).

Whoever makes the calls of the record again, to a store as it was in the beginning, gets the same
answers and ends with the same store (`Store.reissue`).  A memory does not change when it is read,
so there the writes alone are enough, and what they add to the words stored can be counted
(`Memory.size_writeAll`).
-/

namespace SetAssoc

universe u v

/-! ## Making calls again -/

namespace Call

/-- The word written by a call, with its address. -/
def written? : Call → Option (UInt32 × UInt32)
  | .read _ _ => none
  | .write a w => some (a, w)

theorem address_of_written? {call : Call} {x : UInt32 × UInt32} (h : call.written? = some x) :
    call.address = x.1 := by
  cases call with
  | read a w => cases h
  | write a w =>
    cases h
    rfl

theorem map_fst_written? (calls : List Call) :
    (calls.filterMap written?).map Prod.fst = calls.filterMap writeAddress? := by
  rw [List.map_filterMap]
  congr 1
  funext call
  cases call <;> rfl

end Call

/-- Addresses of whole words are left alone. -/
theorem wordAddress_of_dvd {a : UInt32} (h : 4 ∣ a.toNat) : wordAddress a = a := by
  rw [← UInt32.toNat_inj, Geometry.toNat_wordAddress, Nat.div_mul_cancel h]

namespace Store

variable {μ : Type u} [Store μ]

/-- Makes calls again: to read the same addresses, and to write the same words.  Tells the calls
with the answers they get now, and the store after them. -/
def reissue (m : μ) : List Call → List Call × μ
  | [] => ([], m)
  | .read a _ :: calls =>
    let (w, m) := read m a
    let (made, m) := reissue m calls
    (.read a w :: made, m)
  | .write a w :: calls =>
    let (made, m) := reissue (write m a w) calls
    (.write a w :: made, m)

/-- The calls get the answers that they name, and leave this store. -/
def Replays (m : μ) (calls : List Call) (m' : μ) : Prop := reissue m calls = (calls, m')

theorem Replays.append {m m' m'' : μ} {calls calls' : List Call} (h : Replays m calls m')
    (h' : Replays m' calls' m'') : Replays m (calls ++ calls') m'' := by
  induction calls generalizing m with
  | nil =>
    cases h
    exact h'
  | cons call calls ih =>
    cases call with
    | read a w =>
      simp only [Replays, reissue, Prod.mk.injEq, List.cons.injEq, Call.read.injEq] at h
      obtain ⟨⟨⟨-, hword⟩, hcalls⟩, hm⟩ := h
      have hrest := ih (Prod.ext hcalls hm)
      simp only [Replays, List.cons_append, reissue, hword]
      rw [hrest]
    | write a w =>
      simp only [Replays, reissue, Prod.mk.injEq, List.cons.injEq, true_and] at h
      have hrest := ih (Prod.ext h.1 h.2)
      simp only [Replays, List.cons_append, reissue]
      rw [hrest]

theorem replays_readAll (m : μ) (as : List UInt32) :
    Replays m ((as.zip (readAll m as).1).map fun w => .read w.1 w.2) (readAll m as).2 := by
  induction as generalizing m with
  | nil => rfl
  | cons a as ih =>
    have hrest := ih (read m a).2
    simp only [Replays, readAll, List.zip_cons_cons, List.map_cons, reissue] at hrest ⊢
    rw [hrest]

theorem replays_writeAll (m : μ) (ws : List (UInt32 × UInt32)) :
    Replays m (ws.map fun w => .write w.1 w.2) (writeAll m ws) := by
  induction ws generalizing m with
  | nil => rfl
  | cons w ws ih =>
    have hrest := ih (write m w.1 w.2)
    simp only [Replays, List.map_cons, reissue] at hrest ⊢
    rw [hrest]
    rfl

end Store

namespace Memory

/-- **The writes alone** say what memory becomes. -/
theorem reissue_eq (m : Memory) (calls : List Call) :
    (Store.reissue m calls).2 = Store.writeAll m (calls.filterMap Call.written?) := by
  induction calls generalizing m with
  | nil => rfl
  | cons call calls ih =>
    cases call with
    | read a w => exact ih m
    | write a w => exact ih (m.set a w)

/-- **Words stored.**  Writes to whole words add those that were not stored yet, each once. -/
theorem size_writeAll (m : Memory) {ws : List (UInt32 × UInt32)}
    (haligned : ∀ w ∈ ws, wordAddress w.1 = w.1) :
    (Store.writeAll m ws).size =
      m.size + ((ws.map Prod.fst).toFinset.filter fun a => a ∉ m.words).card := by
  induction ws generalizing m with
  | nil => rfl
  | cons w ws ih =>
    obtain ⟨a, v⟩ := w
    have ha : wordAddress a = a := haligned (a, v) List.mem_cons_self
    have hmem : ∀ x, x ∈ (m.set a v).words ↔ a = x ∨ x ∈ m.words := by
      intro x
      simp [set, ha, Std.HashMap.mem_insert]
    have hsize : (m.set a v).size = if a ∈ m.words then m.size else m.size + 1 := by
      simp [size, set, ha, Std.HashMap.size_insert]
    -- the words still to be counted are those from before, without the one just stored
    have hfilter : ((ws.map Prod.fst).toFinset.filter fun x => x ∉ (m.set a v).words) =
        ((ws.map Prod.fst).toFinset.filter fun x => x ∉ m.words).erase a := by
      ext x
      simp only [Finset.mem_filter, Finset.mem_erase, hmem, not_or, Ne, eq_comm (a := a)]
      tauto
    have hfound : a ∈ m.words → a ∉ (ws.map Prod.fst).toFinset.filter fun x => x ∉ m.words :=
      fun hstored h => (Finset.mem_filter.mp h).2 hstored
    rw [writeAll_cons, ih _ fun w hw => haligned w (List.mem_cons_of_mem _ hw), hsize, hfilter,
      List.map_cons, List.toFinset_cons, Finset.filter_insert]
    generalize ((ws.map Prod.fst).toFinset.filter fun x => x ∉ m.words) = rest at hfound
    by_cases hstored : a ∈ m.words
    · rw [if_pos hstored, if_neg (not_not.mpr hstored), Finset.erase_eq_of_notMem (hfound hstored)]
    · rw [if_neg hstored, if_pos hstored, Nat.add_assoc, Nat.add_comm 1,
        ← Finset.card_erase_add_one (Finset.mem_insert_self a rest), Finset.erase_insert_eq_erase]

end Memory

/-! ## What a cache asks -/

namespace Cache

variable {g : Geometry} {μ : Type u} {ν : Type v} [Store μ] [Evictor ν]

/-- The calls that a cache makes to its store to serve an access, with their answers: none if the
block is there; or else those that write back what stands in the way settled on, if that has
changes, and those that read the block. -/
def asked (c : Cache g μ ν) (op : Access) : List Call :=
  let a := op.address
  let way := (c.settle a).way
  let old := (c.home a).get way
  if c.Holds a then []
  else (if old.valid && old.dirty then g.writing (g.locate a).index old else []) ++
    g.reading a (fetch g a (c.vacate a way)).1.words

/-- The calls that a cache makes in a run. -/
def askedIn (c : Cache g μ ν) : List Access → List Call
  | [] => []
  | op :: ops => c.asked op ++ (c.access op).2.askedIn ops

/-- All calls go to whole words. -/
theorem Sound.aligned_of_mem_asked {c : Cache g μ ν} (hc : c.Sound) {op : Access} {call : Call}
    (h : call ∈ c.asked op) : 4 ∣ call.address.toNat := by
  simp only [asked] at h
  split at h
  · cases h
  · rcases List.mem_append.mp h with h | h
    · split at h
      · next hstale =>
        rw [Bool.and_eq_true] at hstale
        exact g.aligned_of_mem_writing ((hc _).tag_lt _ (get_mem_toList _ _) hstale.1) h
      · cases h
    · exact g.aligned_of_mem_reading h

theorem Sound.aligned_of_mem_askedIn {c : Cache g μ ν} (hc : c.Sound) {ops : List Access}
    {call : Call} (h : call ∈ c.askedIn ops) : 4 ∣ call.address.toNat := by
  induction ops generalizing c with
  | nil => cases h
  | cons op ops ih =>
    rcases List.mem_append.mp h with h | h
    · exact hc.aligned_of_mem_asked h
    · exact ih (hc.access op) h

/-- **The calls of an access**, made again, do to the store what the access did. -/
theorem replays_asked (c : Cache g μ ν) (op : Access) :
    Store.Replays c.store (c.asked op) (c.access op).2.store := by
  have hs := c.settling op.address
  simp only [asked]
  show Store.Replays _ _ (c.settle op.address).cache.store
  generalize c.settle op.address = s at hs
  cases hs with
  | hit way found =>
    rw [if_pos (holds_of_found found)]
    rfl
  | miss way evictor room =>
    rw [if_neg room.not_holds, way_replace, store_replace]
    -- what goes back brings the store to where the block is fetched from
    have hvacate : Store.Replays c.store
        (if ((c.home op.address).get way).valid && ((c.home op.address).get way).dirty then
          g.writing (g.locate op.address).index ((c.home op.address).get way) else [])
        (c.vacate op.address way) := by
      simp only [vacate]
      split
      · rw [g.writing_eq]
        exact Store.replays_writeAll c.store _
      · rfl
    refine hvacate.append ?_
    rw [g.reading_eq]
    exact Store.replays_readAll _ _

/-- **The calls of a run**, made again, do to the store what the run did. -/
theorem replays_askedIn (c : Cache g μ ν) (ops : List Access) :
    Store.Replays c.store (c.askedIn ops) (c.run ops).2.store := by
  induction ops generalizing c with
  | nil => rfl
  | cons op ops ih => exact (c.replays_asked op).append (ih _)

/-- **A record grows** by the calls that the access makes. -/
theorem calls_access (c : Cache g (Recorded μ) ν) (op : Access) :
    (c.access op).2.store.calls.toList =
      c.store.calls.toList ++ (c.carry Recorded.inner).asked op := by
  have hs := c.settling op.address
  have hway : ((c.carry Recorded.inner).settle op.address).way = (c.settle op.address).way :=
    congrArg Settled.way (settle_carry Recorded.simulates_inner c op.address)
  simp only [asked, hway]
  show (c.settle op.address).cache.store.calls.toList = _
  generalize c.settle op.address = s at hs
  cases hs with
  | hit way found =>
    have hheld : (c.carry Recorded.inner).Holds op.address := holds_of_found (c := c) found
    rw [if_pos hheld, List.append_nil]
  | miss way evictor room =>
    have hmiss : ¬ (c.carry Recorded.inner).Holds op.address := room.not_holds
    rw [if_neg hmiss, calls_replace, way_replace, vacate_carry Recorded.simulates_inner,
      fetch_carry Recorded.simulates_inner]
    rfl

/-! ## Records taken in between -/

/-- What can be done with a cache in front of a recorded store. -/
inductive Turn where
  /-- The cache serves an access. -/
  | access (op : Access)
  /-- The record is taken away. -/
  | take
deriving DecidableEq, Repr

/-- The access, if the cache serves one. -/
def Turn.access? : Turn → Option Access
  | access op => some op
  | take => none

/-- What there is after some turns. -/
structure Watched (g : Geometry) (μ : Type u) (ν : Type v) where
  /-- The answers to the accesses. -/
  answers : List Reply
  /-- The records that were taken away. -/
  taken : List (Array Call)
  /-- The cache, with the last record still in front of its store. -/
  cache : Cache g (Recorded μ) ν

/-- All records, laid end to end. -/
def Watched.log (w : Watched g μ ν) : List Call :=
  w.taken.flatMap Array.toList ++ w.cache.store.calls.toList

/-- Takes some turns, one after the other. -/
def watch (c : Cache g (Recorded μ) ν) : List Turn → Watched g μ ν
  | [] => { answers := [], taken := [], cache := c }
  | .access op :: turns =>
    let (r, c) := c.access op
    let w := c.watch turns
    { w with answers := r :: w.answers }
  | .take :: turns =>
    let (log, store) := c.store.take
    let w := watch { c with store } turns
    { w with taken := log :: w.taken }

/-- **Records show what is asked**, whenever they are taken away, and change nothing. -/
theorem watch_eq (c : Cache g (Recorded μ) ν) (turns : List Turn) :
    let w := c.watch turns
    let inner := c.carry Recorded.inner
    let ops := turns.filterMap Turn.access?
    (w.answers, w.cache.carry Recorded.inner) = inner.run ops ∧
      w.log = c.store.calls.toList ++ inner.askedIn ops := by
  intro w inner ops
  induction turns generalizing c with
  | nil => exact ⟨rfl, (List.append_nil _).symm⟩
  | cons turn turns ih =>
    cases turn with
    | access op =>
      obtain ⟨hrun, hlog⟩ := ih (c.access op).2
      have haccess : inner.access op =
          ((c.access op).1, (c.access op).2.carry Recorded.inner) :=
        access_carry Recorded.simulates_inner c op
      refine ⟨?_, ?_⟩
      · show _ = inner.run (op :: turns.filterMap Turn.access?)
        rw [run_cons, haccess, ← hrun]
        rfl
      · show ((c.access op).2.watch turns).log =
          _ ++ (inner.asked op ++ (inner.access op).2.askedIn (turns.filterMap Turn.access?))
        rw [hlog, calls_access, haccess, List.append_assoc]
    | take =>
      obtain ⟨hrun, hlog⟩ := ih { c with store := c.store.take.2 }
      refine ⟨hrun, ?_⟩
      show (c.store.calls :: _).flatMap Array.toList ++ _ = _
      rw [List.flatMap_cons, List.append_assoc]
      exact congrArg (c.store.calls.toList ++ ·) hlog

/-- **Recording is transparent and faithful.**  A fresh cache in front of a recorded memory serves
accesses, and the record is taken away any number of times in between.  The answers, the sets, the
totals, the evictor and the memory behind are those of the cache without a record.  The records laid
end to end are the calls that the cache without a record makes, in order.  Made again, to the memory
as it was in the beginning, these calls get the answers recorded and leave the same memory.  So do
the writes alone; and the words stored grow by the distinct addresses written that were not stored
in the beginning. -/
theorem recording_of_run (g : Geometry) (policy : Policy) (m : Memory) (e : ν)
    (turns : List Turn) :
    let ops := turns.filterMap Turn.access?
    let plain := (empty g policy m e).run ops
    let w := (empty g policy ({ inner := m } : Recorded Memory) e).watch turns
    let after := w.cache.store.inner
    w.answers = plain.1 ∧
    w.cache.sets = plain.2.sets ∧
    w.cache.counters = plain.2.counters ∧
    w.cache.evictor = plain.2.evictor ∧
    after = plain.2.store ∧
    w.log = (empty g policy m e).askedIn ops ∧
    Store.reissue m w.log = (w.log, after) ∧
    after = Store.writeAll m (w.log.filterMap Call.written?) ∧
    after.size = m.size +
      ((w.log.filterMap Call.writeAddress?).toFinset.filter fun a => a ∉ m.words).card := by
  intro ops plain w after
  obtain ⟨hrun, hlog⟩ := watch_eq (empty g policy ({ inner := m } : Recorded Memory) e) turns
  have hcache : w.cache.carry Recorded.inner = plain.2 := congrArg Prod.snd hrun
  have hstore : after = plain.2.store := congrArg Cache.store hcache
  have hasked : w.log = (empty g policy m e).askedIn ops := hlog
  have hreplay : Store.reissue m w.log = (w.log, after) := by
    rw [hasked, hstore]
    exact (empty g policy m e).replays_askedIn ops
  have hwrites : after = Store.writeAll m (w.log.filterMap Call.written?) := by
    rw [← m.reissue_eq, hreplay]
  have haligned : ∀ x ∈ w.log.filterMap Call.written?, wordAddress x.1 = x.1 := by
    intro x hx
    obtain ⟨call, hcall, hwritten⟩ := List.mem_filterMap.mp hx
    rw [hasked] at hcall
    rw [← Call.address_of_written? hwritten]
    exact wordAddress_of_dvd ((sound_empty g policy m e).aligned_of_mem_askedIn hcall)
  refine ⟨congrArg Prod.fst hrun, congrArg Cache.sets hcache, congrArg Cache.counters hcache,
    congrArg Cache.evictor hcache, hstore, hasked, hreplay, hwrites, ?_⟩
  rw [hwrites, Memory.size_writeAll m haligned, Call.map_fst_written?]

/-- Room for one word.  The first record is taken away behind a change, the second when the changed
word is back in memory: two words were read by then, and one word was stored. -/
theorem recording_of_run_taken_twice :
    let w := (empty ⟨1, 0, 2, by decide, by decide, by decide⟩ .leastRecentlyUsed
      ({ inner := {} } : Recorded Memory) (⟨[]⟩ : Rota)).watch
        [.access (.write 0 7), .take, .access (.read 4), .take]
    w.log = [.read 0 0, .write 0 7, .read 4 0] ∧
      Store.reissue ({} : Memory) w.log = (w.log, w.cache.store.inner) ∧
      w.cache.store.inner.size = 1 := by
  intro w
  have hlog : w.log = [.read 0 0, .write 0 7, .read 4 0] := by cbv
  obtain ⟨-, -, -, -, -, -, hreplay, -, hsize⟩ := recording_of_run
    ⟨1, 0, 2, by decide, by decide, by decide⟩ .leastRecentlyUsed ({} : Memory) (⟨[]⟩ : Rota)
    [.access (.write 0 7), .take, .access (.read 4), .take]
  refine ⟨hlog, hreplay, hsize.trans ?_⟩
  have hwritten : w.log.filterMap Call.writeAddress? = [0] := by
    rw [hlog]
    rfl
  show 0 + ((w.log.filterMap Call.writeAddress?).toFinset.filter _).card = 1
  rw [hwritten]
  simp

end Cache

end SetAssoc

import SetAssoc.Proofs.Recency
import SetAssoc.Proofs.Totals
/-!
# Hits by counting

Whether a block is still in a cache that follows recency can be told without the cache.  The block
was accessed before, and since its last access fewer other blocks of its set than there are ways
were: `Geometry.Reused`.  Only the size of a block and the two numbers of ways and sets enter, and
each of the two can only help (`Geometry.Reused.mono`).
-/

namespace SetAssoc

universe u v

namespace Geometry

variable (g : Geometry)

/-! ## Blocks of one set -/

@[simp] theorem blockStart_blockStart (a : UInt32) :
    g.blockStart (g.blockStart a) = g.blockStart a := by
  rw [← UInt32.toNat_inj, toNat_blockStart, toNat_blockStart,
    Nat.mul_div_cancel _ g.blockBytes_pos]

/-- The blocks accessed in one set, each by its first address. -/
def blocksIn (s : Fin g.sets) (ops : List Access) : Finset UInt32 :=
  ((ops.filter fun op => (g.locate op.address).index = s).map fun op =>
    g.blockStart op.address).toFinset

theorem mem_blocksIn {s : Fin g.sets} {ops : List Access} {b : UInt32} :
    b ∈ g.blocksIn s ops ↔
      ∃ op ∈ ops, (g.locate op.address).index = s ∧ g.blockStart op.address = b := by
  simp [blocksIn, and_assoc]

theorem card_blocksIn_le (s : Fin g.sets) (past ops : List Access) :
    (g.blocksIn s past).card ≤ (g.blocksIn s (past ++ ops)).card := by
  refine Finset.card_le_card fun b hb => ?_
  obtain ⟨op, hop, hin⟩ := g.mem_blocksIn.mp hb
  exact g.mem_blocksIn.mpr ⟨op, List.mem_append_left ops hop, hin⟩

theorem mem_history {s : Fin g.sets} {ops : List Access} {t : UInt32} :
    t ∈ g.history s ops ↔
      ∃ op ∈ ops, (g.locate op.address).index = s ∧ (g.locate op.address).tag = t := by
  simp [history, and_assoc]

/-- The tag of a block occurs in the history of its set exactly if the block was accessed. -/
theorem tag_mem_history {a : UInt32} {ops : List Access} :
    (g.locate a).tag ∈ g.history (g.locate a).index ops ↔
      ∃ op ∈ ops, g.blockStart op.address = g.blockStart a := by
  simp only [mem_history, blockStart_eq_iff]

/-- In one set there are as many blocks as there are tags. -/
theorem card_blocksIn (s : Fin g.sets) (ops : List Access) :
    (g.blocksIn s ops).card = (g.history s ops).toFinset.card := by
  have himage : (g.blocksIn s ops).image (fun b => (g.locate b).tag) =
      (g.history s ops).toFinset := by
    ext t
    rw [Finset.mem_image, List.mem_toFinset, mem_history]
    constructor
    · rintro ⟨b, hb, rfl⟩
      obtain ⟨op, hop, hindex, rfl⟩ := g.mem_blocksIn.mp hb
      exact ⟨op, hop, hindex, ((g.blockStart_eq_iff _ _).mp (g.blockStart_blockStart _).symm).2⟩
    · rintro ⟨op, hop, hindex, rfl⟩
      refine ⟨_, g.mem_blocksIn.mpr ⟨op, hop, hindex, rfl⟩, ?_⟩
      exact ((g.blockStart_eq_iff _ _).mp (g.blockStart_blockStart _)).2
  rw [← himage, Finset.card_image_of_injOn]
  -- within one set the tag names the block
  intro b hb c hc htag
  obtain ⟨op, -, hop, rfl⟩ := g.mem_blocksIn.mp hb
  obtain ⟨op', -, hop', rfl⟩ := g.mem_blocksIn.mp hc
  have hindex : ∀ a, (g.locate (g.blockStart a)).index = (g.locate a).index :=
    fun a => ((g.blockStart_eq_iff _ _).mp (g.blockStart_blockStart a)).1
  rw [← g.blockStart_blockStart op.address, ← g.blockStart_blockStart op'.address,
    blockStart_eq_iff]
  exact ⟨by rw [hindex, hindex, hop, hop'], htag⟩

/-! ## Reuse -/

/-- The block around an address was accessed before, and since then not as many other blocks of its
set as there are ways. -/
def Reused (past : List Access) (a : UInt32) : Prop :=
  ∃ before last since, past = before ++ last :: since ∧
    g.blockStart last.address = g.blockStart a ∧
    (∀ op ∈ since, g.blockStart op.address ≠ g.blockStart a) ∧
    (g.blocksIn (g.locate a).index since).card < g.ways

/-- Where a block was accessed, there is a last time. -/
theorem exists_last_access {past : List Access} {a : UInt32}
    (h : ∃ op ∈ past, g.blockStart op.address = g.blockStart a) :
    ∃ before last since, past = before ++ last :: since ∧
      g.blockStart last.address = g.blockStart a ∧
      ∀ op ∈ since, g.blockStart op.address ≠ g.blockStart a := by
  -- from the end of the past, so that the first access found is the last one made
  induction past using List.reverseRecOn with
  | nil =>
    obtain ⟨op, hop, -⟩ := h
    cases hop
  | append_singleton past op ih =>
    by_cases hblock : g.blockStart op.address = g.blockStart a
    · exact ⟨past, op, [], rfl, hblock, by simp⟩
    · have hpast : ∃ op ∈ past, g.blockStart op.address = g.blockStart a := by
        obtain ⟨op', hop', hblock'⟩ := h
        rcases List.mem_append.mp hop' with hin | hin
        · exact ⟨op', hin, hblock'⟩
        · rw [List.mem_singleton.mp hin] at hblock'
          exact absurd hblock' hblock
      obtain ⟨before, last, since, rfl, hlast, hsince⟩ := ih hpast
      refine ⟨before, last, since ++ [op], by simp, hlast, ?_⟩
      intro op' hop'
      rcases List.mem_append.mp hop' with hin | hin
      · exact hsince op' hin
      · rw [List.mem_singleton.mp hin]
        exact hblock

/-- How far down a block stands in its set: below the blocks accessed since. -/
theorem mem_take_history_iff {before since : List Access} {last : Access} {a : UInt32}
    (hlast : g.blockStart last.address = g.blockStart a)
    (hsince : ∀ op ∈ since, g.blockStart op.address ≠ g.blockStart a) (n : Nat) :
    (g.locate a).tag ∈ (recent (g.history (g.locate a).index (before ++ last :: since))).take n ↔
      (g.blocksIn (g.locate a).index since).card < n := by
  obtain ⟨hindex, htag⟩ := (g.blockStart_eq_iff _ _).mp hlast
  have hfresh : (g.locate a).tag ∉ g.history (g.locate a).index since := by
    rw [tag_mem_history]
    rintro ⟨op, hop, hblock⟩
    exact hsince op hop hblock
  have hhistory : g.history (g.locate a).index (before ++ last :: since) =
      g.history (g.locate a).index before ++
        (g.locate a).tag :: g.history (g.locate a).index since := by
    rw [history_append, ← hindex, history_cons_self, htag]
  rw [hhistory, mem_take_recent_iff hfresh, card_blocksIn]

/-- **Recency by counting:** a tag is among those accessed most recently exactly if its block is
reused. -/
theorem tag_mem_recent_iff_reused (past : List Access) (a : UInt32) :
    (g.locate a).tag ∈ (recent (g.history (g.locate a).index past)).take g.ways ↔
      g.Reused past a := by
  constructor
  · intro h
    have hmem := g.tag_mem_history.mp (mem_recent.mp (List.mem_of_mem_take h))
    obtain ⟨before, last, since, rfl, hlast, hsince⟩ := g.exists_last_access hmem
    exact ⟨before, last, since, rfl, hlast, hsince, (g.mem_take_history_iff hlast hsince _).mp h⟩
  · rintro ⟨before, last, since, rfl, hlast, hsince, hcard⟩
    exact (g.mem_take_history_iff hlast hsince _).mpr hcard

/-! ## Two geometries -/

theorem blockStart_congr {g g' : Geometry} (h : g.blockBytes = g'.blockBytes) (a : UInt32) :
    g.blockStart a = g'.blockStart a := by
  rw [blockStart, blockStart, h]

/-- The sets of a cache with fewer sets are unions of sets of the other. -/
theorem index_eq_of_sets_le {g g' : Geometry} (hblock : g.blockBytes = g'.blockBytes)
    (hsets : g.sets ≤ g'.sets) {a b : UInt32}
    (h : (g'.locate a).index = (g'.locate b).index) :
    (g.locate a).index = (g.locate b).index := by
  have hdvd : g.sets ∣ g'.sets :=
    Nat.pow_dvd_pow 2 ((Nat.pow_le_pow_iff_right (by decide)).mp hsets)
  rw [Fin.ext_iff, index_locate, index_locate, ← hblock] at h
  rw [Fin.ext_iff, index_locate, index_locate, ← Nat.mod_mod_of_dvd _ hdvd, h,
    Nat.mod_mod_of_dvd _ hdvd]

/-- **More ways or more sets lose no reuse.** -/
theorem Reused.mono {g g' : Geometry} (hblock : g.blockBytes = g'.blockBytes)
    (hways : g.ways ≤ g'.ways) (hsets : g.sets ≤ g'.sets) {past : List Access} {a : UInt32}
    (h : g.Reused past a) : g'.Reused past a := by
  obtain ⟨before, last, since, rfl, hlast, hsince, hcard⟩ := h
  have hstart := blockStart_congr hblock
  refine ⟨before, last, since, rfl, ?_, ?_, ?_⟩
  · rw [← hstart, ← hstart, hlast]
  · intro op hop
    rw [← hstart, ← hstart]
    exact hsince op hop
  · -- what was accessed in the set of the larger cache was so in the set of the smaller one
    have hsub : g'.blocksIn (g'.locate a).index since ⊆ g.blocksIn (g.locate a).index since := by
      intro b hb
      obtain ⟨op, hop, hindex, rfl⟩ := g'.mem_blocksIn.mp hb
      exact g.mem_blocksIn.mpr ⟨op, hop, index_eq_of_sets_le hblock hsets hindex, hstart _⟩
    calc (g'.blocksIn (g'.locate a).index since).card
        ≤ (g.blocksIn (g.locate a).index since).card := Finset.card_le_card hsub
      _ < g.ways := hcard
      _ ≤ g'.ways := hways

end Geometry

namespace Cache

variable {g : Geometry} {μ : Type u} {ν : Type v} [Store μ] [Evictor ν]

/-! ## Hits and misses -/

/-- What a cache under recency holds, told from the accesses alone. -/
theorem holds_run_iff (g : Geometry) (m : μ) (e : ν) (ops : List Access) (a : UInt32) :
    ((empty g .leastRecentlyUsed m e).run ops).2.Holds a ↔ g.Reused ops a := by
  rw [holds_iff_mem_takenTags, home, follows_run, g.tag_mem_recent_iff_reused]

/-- **A cache under recency is a stack of blocks for every set.**  After any number of accesses the
tags of the taken ways, in their order, are those accessed most recently, as many as there are ways,
and no other way is taken.  So an access is free exactly if its block is reused, and otherwise costs
a miss. -/
theorem recency_of_run (g : Geometry) (m : μ) (e : ν) (ops : List Access) :
    (∀ n (s : Fin g.sets),
      let row := (((empty g .leastRecentlyUsed m e).run (ops.take n)).2.sets.get s).toList
      let live := (recent (g.history s (ops.take n))).take g.ways
      takenTags row = live ∧ ∀ b ∈ row.drop live.length, b.valid = false) ∧
    ∀ k op, ops[k]? = some op →
      let cycles := ((empty g .leastRecentlyUsed m e).run ops).1[k]?.map Reply.cycles
      (g.Reused (ops.take k) op.address → cycles = some 0) ∧
      (¬ g.Reused (ops.take k) op.address → cycles = some 50) := by
  refine ⟨?_, ?_⟩
  · intro n s row live
    have htags : takenTags row = live := follows_run g m e (ops.take n) s
    refine ⟨htags, fun b hb => ?_⟩
    obtain ⟨i, hi⟩ := List.mem_iff_getElem?.mp hb
    rw [List.getElem?_drop, ← htags] at hi
    exact (sound_run g _ m e (ops.take n) s).free_of_length_le hi (Nat.le_add_right _ _)
  · intro k op hk cycles
    have hholds := holds_run_iff g m e (ops.take k) op.address
    have hcycles := getElem?_cycles_run (empty g .leastRecentlyUsed m e) ops k
    rw [hk, Option.map_some] at hcycles
    constructor
    · intro h
      rw [if_pos (hholds.mpr h)] at hcycles
      exact hcycles
    · intro h
      rw [if_neg fun hc => h (hholds.mp hc)] at hcycles
      exact hcycles

/-- Two ways: the first block is still there after one other was accessed twice. -/
theorem recency_of_run_reused :
    ((empty ⟨2, 0, 3, by decide, by decide, by decide⟩ .leastRecentlyUsed ({} : Memory)
      (⟨[]⟩ : Rota)).run [.read 0, .read 8, .write 12 1, .read 4]).1[3]?.map Reply.cycles =
        some 0 :=
  ((recency_of_run _ ({} : Memory) (⟨[]⟩ : Rota)
    [.read 0, .read 8, .write 12 1, .read 4]).2 3 (.read 4) rfl).1
      ⟨[], .read 0, [.read 8, .write 12 1], rfl, by decide, by decide, by decide⟩

end Cache

end SetAssoc

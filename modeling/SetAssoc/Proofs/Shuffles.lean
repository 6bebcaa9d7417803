import SetAssoc.Proofs.Occupancy
import SetAssoc.Proofs.Recording
/-!
# Where the policy does not matter

Two caches with the same blocks in every set, in whatever order, serve an access alike as long as
none of them has to choose.  A hit finds the same block in both; a free way is like any other; and
of a single way there is no choice at all.  Policy and evictor may differ, then, and neither the
answers nor the store will tell (`Shuffled.access`).

No choice has to be made while no more blocks of any set are accessed than there are ways: until
then a block that is not there finds a free way (`holds_or_free_run`).
-/

namespace SetAssoc

universe u v v'

/-! ## Rows up to order -/

section Row

variable {α : Type u} {w : Nat} {row row' : Vector α w} {i i' : Fin w}

/-- Putting the same into the places of the same keeps two rows the same up to order. -/
theorem perm_setAt (h : row.toList.Perm row'.toList) (hget : row.get i = row'.get i') (x : α) :
    (setAt row i x).toList.Perm (setAt row' i' x).toList := by
  obtain ⟨xs, ys, -, hrow, hset⟩ := exists_split row i
  obtain ⟨xs', ys', -, hrow', hset'⟩ := exists_split row' i'
  rw [hrow, hrow', hget] at h
  have hrest : (xs ++ ys).Perm (xs' ++ ys') :=
    (List.perm_middle.symm.trans (h.trans List.perm_middle)).cons_inv
  rw [hset, hset']
  exact List.perm_middle.trans ((hrest.cons x).trans List.perm_middle.symm)

theorem Policy.perm_reorder (p : Policy) (row : Vector α w) (i : Fin w) :
    (p.reorder row i).toList.Perm row.toList := by
  obtain ⟨xs, ys, hlen, hrow, -⟩ := exists_split row i
  rw [p.toList_reorder hrow hlen, hrow]
  exact p.perm_arrange xs _ ys

end Row

namespace Cache

variable {g : Geometry} {μ : Type u} {ν : Type v} {ν' : Type v'}

/-- The same blocks in every set, up to order, in front of the same store. -/
structure Shuffled (c : Cache g μ ν) (c' : Cache g μ ν') : Prop where
  /-- The sets have the same blocks. -/
  rows : ∀ s, (c.sets.get s).toList.Perm (c'.sets.get s).toList
  /-- The stores are in the same state. -/
  store : c.store = c'.store
  /-- The accesses so far added up to the same. -/
  counters : c.counters = c'.counters

/-- The same block was settled in the same number of cycles. -/
structure SettledAlike (a : UInt32) (s : Settled g μ ν) (s' : Settled g μ ν') : Prop where
  /-- It took as long. -/
  cycles : s.cycles = s'.cycles
  /-- The block is the same. -/
  block : (s.cache.home a).get s.way = (s'.cache.home a).get s'.way
  /-- So is everything else. -/
  caches : s.cache.Shuffled s'.cache

namespace Shuffled

variable {c : Cache g μ ν} {c' : Cache g μ ν'} {a : UInt32} {way way' : Fin g.ways}

theorem home (h : c.Shuffled c') (a : UInt32) : (c.home a).toList.Perm (c'.home a).toList :=
  h.rows _

/-- Whatever a block of one set is, one of the other is as well. -/
theorem exists_iff (h : c.Shuffled c') (a : UInt32) (P : Block g.blockWords → Prop) :
    (∃ way, P ((c.home a).get way)) ↔ ∃ way, P ((c'.home a).get way) := by
  rw [exists_get_iff, exists_get_iff]
  exact exists_congr fun b => and_congr_left' (h.home a).mem_iff

theorem holds_iff (h : c.Shuffled c') (a : UInt32) : c.Holds a ↔ c'.Holds a :=
  h.exists_iff a fun b => b.Bears (g.locate a).tag

theorem free_iff (h : c.Shuffled c') (a : UInt32) :
    (∃ way, ((c.home a).get way).valid = false) ↔ ∃ way, ((c'.home a).get way).valid = false :=
  h.exists_iff a fun b => b.valid = false

/-- Rows that are the same up to order, put in one place, keep the caches so. -/
theorem of_setAt (h : c.Shuffled c') {d : Cache g μ ν} {d' : Cache g μ ν'} {s : Fin g.sets}
    {row row' : Vector (Block g.blockWords) g.ways} (hsets : d.sets = setAt c.sets s row)
    (hsets' : d'.sets = setAt c'.sets s row') (hrow : row.toList.Perm row'.toList)
    (hstore : d.store = d'.store) (hcounters : d.counters = d'.counters) : d.Shuffled d' where
  rows j := by
    rw [hsets, hsets', get_setAt, get_setAt]
    split
    · exact hrow
    · exact h.rows j
  store := hstore
  counters := hcounters

/-! ### One access -/

/-- **Fetching a block** in the place of the same block. -/
theorem replace [Store μ] (h : c.Shuffled c') (hold : (c.home a).get way = (c'.home a).get way') :
    SettledAlike a (c.replace a way) (c'.replace a way') := by
  have hvacate : c.vacate a way = c'.vacate a way' := by
    simp only [vacate, hold, h.store]
  refine ⟨rfl, ?_, h.of_setAt (sets_replace c a way) (sets_replace c' a way') ?_ ?_ ?_⟩
  · simp only [home_replace, way_replace, get_setAt_self, hvacate]
  · rw [hvacate]
    exact perm_setAt (h.home a) hold _
  · rw [store_replace, store_replace, hvacate]
  · show c.counters.miss (((c.home a).get way).valid && ((c.home a).get way).dirty) =
      c'.counters.miss (((c'.home a).get way').valid && ((c'.home a).get way').dirty)
    rw [hold, h.counters]

/-- **Room is made in the same place,** where there is no choice: free ways are all alike, and so is
a single way. -/
theorem get_room [Evictor ν] [Evictor ν'] (h : c.Shuffled c') (hc : c.Sound) (hc' : c'.Sound)
    {evictor : ν} {evictor' : ν'} (room : c.Room a way evictor) (room' : c'.Room a way' evictor')
    (hchoice : (∃ way, ((c.home a).get way).valid = false) ∨ g.ways = 1) :
    (c.home a).get way = (c'.home a).get way' := by
  rcases hchoice with hfree | hone
  · have hblank := (hc _).blank _ (get_mem_toList (c.home a) way) (room.free_iff.mpr hfree)
    have hblank' := (hc' _).blank _ (get_mem_toList (c'.home a) way')
      (room'.free_iff.mpr ((h.free_iff a).mp hfree))
    rw [hblank, hblank']
  · have hlen : (c.home a).toList.length = g.ways := Vector.length_toList
    obtain ⟨b, hb⟩ := List.length_eq_one_iff.mp (hlen.trans hone)
    have hb' := List.perm_singleton.mp (hb ▸ (h.home a).symm)
    have hget := get_mem_toList (c.home a) way
    have hget' := get_mem_toList (c'.home a) way'
    rw [hb, List.mem_singleton] at hget
    rw [hb', List.mem_singleton] at hget'
    rw [hget, hget']

/-- **Settling a block** takes the same in both. -/
theorem settle [Store μ] [Evictor ν] [Evictor ν'] (h : c.Shuffled c') (hc : c.Sound)
    (hc' : c'.Sound)
    (hchoice : c.Holds a ∨ (∃ way, ((c.home a).get way).valid = false) ∨ g.ways = 1) :
    SettledAlike a (c.settle a) (c'.settle a) := by
  have hs := c.settling a
  have hs' := c'.settling a
  generalize c.settle a = s at hs
  generalize c'.settle a = s' at hs'
  cases hs with
  | hit way found =>
    have hheld := (h.holds_iff a).mp (holds_of_found found)
    cases hs' with
    | hit way' found' =>
      refine ⟨rfl, ?_, ⟨h.rows, h.store, congrArg Counters.hit h.counters⟩⟩
      refine (hc _).eq_of_bears (get_mem_toList _ way) ?_ (bears_of_findTag_hit found)
        (bears_of_findTag_hit found')
      exact (h.home a).mem_iff.mpr (get_mem_toList _ way')
    | miss way' evictor' room' => exact absurd hheld room'.not_holds
  | miss way evictor room =>
    cases hs' with
    | hit way' found' => exact absurd ((h.holds_iff a).mpr (holds_of_found found')) room.not_holds
    | miss way' evictor' room' =>
      have hold := h.get_room hc hc' room room' (hchoice.resolve_left room.not_holds)
      have hevictors : Shuffled { c with evictor } { c' with evictor := evictor' } :=
        ⟨h.rows, h.store, h.counters⟩
      exact hevictors.replace hold

/-- **Serving the same block.** -/
theorem serveAt (h : c.Shuffled c') {op : Access}
    (hblock : (c.home op.address).get way = (c'.home op.address).get way') :
    (c.serveAt op way).Shuffled (c'.serveAt op way') := by
  refine h.of_setAt rfl rfl ?_ h.store (congrArg (Counters.served · op) h.counters)
  simp only [servedRow, hblock]
  refine (c.policy.perm_reorder _ way).trans (.trans ?_ (c'.policy.perm_reorder _ way').symm)
  exact perm_setAt (h.home op.address) hblock _

/-- **An access where there is no choice** is answered the same and leaves the same, up to order. -/
theorem access [Store μ] [Evictor ν] [Evictor ν'] (h : c.Shuffled c') (hc : c.Sound)
    (hc' : c'.Sound) {op : Access}
    (hchoice : c.Holds op.address ∨
      (∃ way, ((c.home op.address).get way).valid = false) ∨ g.ways = 1) :
    (c.access op).1.cycles = (c'.access op).1.cycles ∧
      (c.access op).1.word = (c'.access op).1.word ∧
      (c.access op).2.Shuffled (c'.access op).2 := by
  have hsettled := h.settle hc hc' hchoice
  rw [access_fst, access_fst, access_eq, access_eq]
  refine ⟨hsettled.cycles, ?_, hsettled.caches.serveAt hsettled.block⟩
  simp only [answer, hsettled.block]

end Shuffled

/-! ## Runs without a choice -/

theorem shuffled_empty (g : Geometry) (policy policy' : Policy) (m : μ) (e : ν) (e' : ν') :
    (empty g policy m e).Shuffled (empty g policy' m e') :=
  ⟨fun _ => .refl _, rfl, rfl⟩

section Run

variable [Store μ] [Evictor ν]

/-- **No choice has to be made** while no more blocks of a set are accessed than it has ways: the
next one is there or finds a free way. -/
theorem holds_or_free_run (policy : Policy) (m : μ) (e : ν) {past : List Access} {op : Access}
    (hcard : (g.blocksIn (g.locate op.address).index (past ++ [op])).card ≤ g.ways) :
    let c := ((empty g policy m e).run past).2
    c.Holds op.address ∨ ∃ way, ((c.home op.address).get way).valid = false := by
  intro c
  have hfilled : Filled _ (c.home op.address).toList :=
    filled_run g policy m e past (g.locate op.address).index
  have hlen : (c.home op.address).toList.length = g.ways := Vector.length_toList
  rw [g.card_blocksIn, g.history_append, g.history_cons_self, ← hlen] at hcard
  refine (hfilled.mem_or_length_lt hcard).imp (c.holds_iff_mem_takenTags _).mpr fun hroom => ?_
  exact (exists_get_iff _ _).mpr (length_takenTags_lt_iff.mp hroom)

variable [Evictor ν']

/-- **A run without a choice** is answered the same and leaves the same, up to order. -/
theorem shuffled_run {ops : List Access}
    (h : (∀ s, (g.blocksIn s ops).card ≤ g.ways) ∨ g.ways = 1) (policy policy' : Policy) (m : μ)
    (e : ν) (e' : ν') :
    let r := (empty g policy m e).run ops
    let r' := (empty g policy' m e').run ops
    r.1.map (fun x => (x.cycles, x.word)) = r'.1.map (fun x => (x.cycles, x.word)) ∧
      r.2.Shuffled r'.2 := by
  induction ops using List.reverseRecOn with
  | nil => exact ⟨rfl, shuffled_empty g policy policy' m e e'⟩
  | append_singleton past op ih =>
    have hpast : (∀ s, (g.blocksIn s past).card ≤ g.ways) ∨ g.ways = 1 :=
      h.imp_left fun hcard s => Nat.le_trans (g.card_blocksIn_le s past [op]) (hcard s)
    obtain ⟨hanswers, hshuffled⟩ := ih hpast
    have hchoice := h.imp_left fun hcard => holds_or_free_run policy m e (hcard _)
    obtain ⟨hcycles, hword, hleft⟩ := hshuffled.access (sound_run g policy m e past)
      (sound_run g policy' m e' past) (or_assoc.mp hchoice)
    simp only [run_concat, List.map_append, List.map_cons, List.map_nil, hanswers, hcycles, hword,
      true_and]
    exact hleft

/-- **The policy does not matter until a set overflows.**  As long as no more blocks of any set are
accessed than there are ways, and for ever if there is a single way, a cache that follows recency
and one that evicts at random answer alike, make the same calls to the store in the same order, add
up to the same totals, and hold the same blocks in every set, up to order. -/
theorem policies_alike {ops : List Access}
    (h : (∀ s, (g.blocksIn s ops).card ≤ g.ways) ∨ g.ways = 1) (m : μ) (e : ν) (e' : ν') :
    let recency := empty g .leastRecentlyUsed m e
    let random := empty g .random m e'
    (recency.run ops).1.map (fun r => (r.cycles, r.word)) =
      (random.run ops).1.map (fun r => (r.cycles, r.word)) ∧
    (recency.recorded.run ops).2.store.calls = (random.recorded.run ops).2.store.calls ∧
    (recency.run ops).2.store = (random.run ops).2.store ∧
    (recency.run ops).2.counters = (random.run ops).2.counters ∧
    ∀ s, ((recency.run ops).2.sets.get s).toList.Perm ((random.run ops).2.sets.get s).toList := by
  intro recency random
  obtain ⟨hanswers, hshuffled⟩ := shuffled_run h .leastRecentlyUsed .random m e e'
  have hrecorded := (shuffled_run h .leastRecentlyUsed .random ({ inner := m } : Recorded μ) e e').2
  exact ⟨hanswers, congrArg Recorded.calls hrecorded.store, hshuffled.store, hshuffled.counters,
    hshuffled.rows⟩

end Run

/-- Two ways for two blocks: the first block is left behind the second one or before it. -/
theorem policies_alike_in_other_order :
    let g : Geometry := ⟨2, 1, 3, by decide, by decide, by decide⟩
    let ops : List Access := [.read 0, .read 20, .read 8]
    let recency := empty g .leastRecentlyUsed ({} : Memory) (⟨[]⟩ : Rota)
    let random := empty g .random ({} : Memory) (⟨[1]⟩ : Rota)
    (∀ s, (g.blocksIn s ops).card ≤ g.ways) ∧
    (∀ s, ((recency.run ops).2.sets.get s).toList.Perm ((random.run ops).2.sets.get s).toList) ∧
    takenTags ((recency.run ops).2.home 0).toList = [1, 0] ∧
    takenTags ((random.run ops).2.home 0).toList = [0, 1] := by
  intro g ops recency random
  have hcard : ∀ s, (g.blocksIn s ops).card ≤ g.ways := by decide
  obtain ⟨-, -, -, -, hrows⟩ :=
    policies_alike (Or.inl hcard) ({} : Memory) (⟨[]⟩ : Rota) (⟨[1]⟩ : Rota)
  exact ⟨hcard, hrows, by decide +kernel, by decide +kernel⟩

end Cache

end SetAssoc

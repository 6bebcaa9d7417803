import SetAssoc.Proofs.Totals
import SetAssoc.Proofs.Transparency
import Mathlib
/-!
# The memory handed back

Taking a cache away leaves the memory behind it, and with it only what was written back.  A word
that no block with changes lies over is up to date.  Any other word is as old as the block over it:
memory last heard of that block when it was fetched, and nothing is written to a block's place in
memory while the block is in the cache (`Sound.get_store_access`).  So the word is the one that the
flat memory held just before the access that fetched the block, the last one that missed it.
-/

namespace SetAssoc

universe v

/-! ## Fetches in a run -/

namespace Geometry

variable (g : Geometry)

/-- Access number `n` of a run with these answers went to the block around an address and had to
fetch it. -/
def FetchedAt (ops : List Access) (rs : List Reply) (a : UInt32) (n : Nat) : Prop :=
  (ops[n]?.map fun op => g.blockStart op.address) = some (g.blockStart a) ∧
    rs[n]?.map Reply.cycles = some missCycles

/-- No later access had to fetch the block again. -/
def LastFetchedAt (ops : List Access) (rs : List Reply) (a : UInt32) (n : Nat) : Prop :=
  g.FetchedAt ops rs a n ∧ ∀ k, n < k → ¬ g.FetchedAt ops rs a k

variable {g} {ops : List Access} {rs : List Reply} {op : Access} {r : Reply} {a : UInt32}

theorem FetchedAt.lt_length {n : Nat} (h : g.FetchedAt ops rs a n) : n < ops.length := by
  obtain ⟨op, hop, -⟩ := Option.map_eq_some_iff.mp h.1
  exact (List.getElem?_eq_some_iff.mp hop).1

theorem fetchedAt_concat (hlen : rs.length = ops.length) (n : Nat) :
    g.FetchedAt (ops ++ [op]) (rs ++ [r]) a n ↔
      if n = ops.length then g.blockStart op.address = g.blockStart a ∧ r.cycles = missCycles
      else g.FetchedAt ops rs a n := by
  split
  · next hn =>
    subst hn
    simp only [FetchedAt, List.getElem?_concat_length, Option.map_some, Option.some.injEq]
    rw [← hlen, List.getElem?_concat_length, Option.map_some, Option.some.injEq]
  · next hn =>
    rcases Nat.lt_or_gt_of_ne hn with hlt | hgt
    · rw [FetchedAt, FetchedAt, List.getElem?_append_left hlt,
        List.getElem?_append_left (by omega)]
    · constructor
      · intro h
        have := h.lt_length
        rw [List.length_append, List.length_singleton] at this
        omega
      · intro h
        have := h.lt_length
        omega

/-- The access that misses a block is the last one to fetch it. -/
theorem lastFetchedAt_concat_of_miss (hlen : rs.length = ops.length)
    (hblock : g.blockStart op.address = g.blockStart a) (hmiss : r.cycles = missCycles) :
    g.LastFetchedAt (ops ++ [op]) (rs ++ [r]) a ops.length := by
  constructor
  · rw [fetchedAt_concat hlen, if_pos rfl]
    exact ⟨hblock, hmiss⟩
  · intro k hk h
    have := h.lt_length
    rw [List.length_append, List.length_singleton] at this
    omega

/-- Any other access leaves the last fetch of the block where it was. -/
theorem LastFetchedAt.concat {n : Nat} (h : g.LastFetchedAt ops rs a n)
    (hlen : rs.length = ops.length)
    (hother : ¬ (g.blockStart op.address = g.blockStart a ∧ r.cycles = missCycles)) :
    g.LastFetchedAt (ops ++ [op]) (rs ++ [r]) a n := by
  have hlt := h.1.lt_length
  constructor
  · rw [fetchedAt_concat hlen, if_neg (by omega)]
    exact h.1
  · intro k hk
    rw [fetchedAt_concat hlen]
    split
    · exact hother
    · exact h.2 k hk

end Geometry

/-! ## Words that are never written -/

theorem flat_of_not_written (m : Memory) {ops : List Access} {a : UInt32}
    (h : ∀ x v, Access.write x v ∈ ops → wordAddress x ≠ wordAddress a) :
    flat m ops (wordAddress a) = m.get a := by
  induction ops using List.reverseRecOn with
  | nil => exact m.get_wordAddress a
  | append_singleton past op ih =>
    rw [flat_concat, ← ih fun x v hx => h x v (List.mem_append_left _ hx)]
    cases op with
    | read x => rfl
    | write x v =>
      exact Function.update_of_ne (h x v (by simp)).symm _ _

namespace Cache

variable {g : Geometry} {ν : Type v} [Evictor ν]

/-! ## One access -/

/-- **Memory under a block is left alone** as long as the block is in the cache. -/
theorem Sound.get_store_access {c : Cache g Memory ν} (hc : c.Sound) (op : Access) {a : UInt32}
    (hbefore : c.Holds a) (hafter : (c.access op).2.Holds a) :
    (c.access op).2.store.get a = c.store.get a := by
  have hs := c.settling op.address
  rw [hc.holds_access_iff] at hafter
  show (c.settle op.address).cache.store.get a = _
  generalize c.settle op.address = s at hs hafter
  cases hs with
  | hit way found => rfl
  | miss way evictor room =>
    obtain ⟨b, hb⟩ := (holds_iff_covers c a).mp hbefore
    have hne : g.blockStart a ≠ g.blockStart op.address :=
      fun hblock => room.not_covers b ((c.covers_congr hblock b).mp hb)
    obtain ⟨b', hb'⟩ := (holds_iff_covers _ a).mp (hafter.resolve_left hne)
    rw [Sound.covers_replace_iff (c := { c with evictor }) hc room.not_covers way,
      if_neg hne] at hb'
    -- the block over the address is still there, so it is not the one that had to go
    show (fetch g op.address (c.vacate op.address way)).2.get a = _
    rw [fetch_memory, hc.get_vacate]
    apply if_neg
    rintro ⟨⟨hvalid, -⟩, hindex, htag⟩
    have hold : c.Covers ((c.home op.address).get way) a := by
      refine ⟨?_, hvalid, htag.symm⟩
      rw [c.home_congr hindex]
      exact get_mem_toList _ way
    exact hb'.2 hindex (hc.eq_of_covers hb'.1 hold)

/-- A miss finds memory up to date under the block that it fetches. -/
theorem Mirrors.get_store_access {c : Cache g Memory ν} {f : UInt32 → UInt32} (h : c.Mirrors f)
    (hc : c.Sound) {op : Access} {a : UInt32} (hblock : g.blockStart a = g.blockStart op.address)
    (hmiss : ¬ c.Holds op.address) : (c.access op).2.store.get a = f (wordAddress a) := by
  have hs := c.settling op.address
  show (c.settle op.address).cache.store.get a = _
  generalize c.settle op.address = s at hs
  cases hs with
  | hit way found => exact absurd (holds_of_found found) hmiss
  | miss way evictor room =>
    show (fetch g op.address (c.vacate op.address way)).2.get a = _
    rw [fetch_memory]
    apply h.get_vacate hc op.address way
    intro b hb _
    exact absurd ((c.covers_congr hblock b).mp hb) (room.not_covers b)

/-! ## Runs -/

/-- **The age of memory under a block.**  What memory holds is what the flat memory held when the
block was last fetched. -/
theorem exists_lastFetchedAt (policy : Policy) (m : Memory) (e : ν) (ops : List Access) {a : UInt32}
    (h : ((empty g policy m e).run ops).2.Holds a) :
    ∃ n, g.LastFetchedAt ops ((empty g policy m e).run ops).1 a n ∧
      ((empty g policy m e).run ops).2.store.get a = flat m (ops.take n) (wordAddress a) := by
  induction ops using List.reverseRecOn with
  | nil => exact absurd h (not_holds_empty g policy m e a)
  | append_singleton past op ih =>
    have hlen : ((empty g policy m e).run past).1.length = past.length := length_run _ past
    have hsound := sound_run g policy m e past
    have hmirrors := mirrors_run (g := g) policy m e past
    rw [run_concat] at h ⊢
    generalize (empty g policy m e).run past = r at *
    have hcycles := r.2.cycles_access op
    by_cases hbefore : r.2.Holds a
    · -- nothing was fetched into the place of the block
      obtain ⟨n, hn, hget⟩ := ih hbefore
      refine ⟨n, hn.concat hlen ?_, ?_⟩
      · rintro ⟨hblock, hcost⟩
        rw [hcycles, if_pos ((r.2.holds_congr hblock).mpr hbefore)] at hcost
        cases hcost
      · rw [List.take_append_of_le_length (Nat.le_of_lt hn.1.lt_length), ← hget]
        exact hsound.get_store_access op hbefore h
    · have hblock := (hsound.holds_of_holds_access h).resolve_right hbefore
      have hmiss : ¬ r.2.Holds op.address :=
        fun hop => hbefore ((r.2.holds_congr hblock).mpr hop)
      rw [if_neg hmiss] at hcycles
      refine ⟨past.length, Geometry.lastFetchedAt_concat_of_miss hlen hblock.symm hcycles, ?_⟩
      rw [List.take_left]
      exact hmirrors.get_store_access hsound hblock hmiss

/-- **What the memory handed back holds.**  A word under no block with changes is up to date.  A
word under a block, with changes or not, is what the flat memory held there when that block was last
fetched.  So a word that was never written is as it was in the beginning; and if no block has
changes, all of memory is up to date. -/
theorem get_store_run (g : Geometry) (policy : Policy) (m : Memory) (e : ν) (ops : List Access)
    (a : UInt32) :
    let r := (empty g policy m e).run ops
    ((∀ b, r.2.Covers b a → b.dirty = false) → r.2.store.get a = flat m ops (wordAddress a)) ∧
    (r.2.Holds a → ∃ n, g.LastFetchedAt ops r.1 a n ∧
      r.2.store.get a = flat m (ops.take n) (wordAddress a)) ∧
    ((∀ x v, Access.write x v ∈ ops → wordAddress x ≠ wordAddress a) →
      r.2.store.get a = m.get a) ∧
    (r.2.dirtyLines = 0 → r.2.store.get a = flat m ops (wordAddress a)) := by
  intro r
  have hclean : (∀ b, r.2.Covers b a → b.dirty = false) →
      r.2.store.get a = flat m ops (wordAddress a) := (mirrors_run policy m e ops).stored a
  have hheld : r.2.Holds a → ∃ n, g.LastFetchedAt ops r.1 a n ∧
      r.2.store.get a = flat m (ops.take n) (wordAddress a) := exists_lastFetchedAt policy m e ops
  refine ⟨hclean, hheld, ?_, ?_⟩
  · intro hnever
    by_cases h : r.2.Holds a
    · obtain ⟨n, -, hget⟩ := hheld h
      rw [hget]
      exact flat_of_not_written m fun x v hx => hnever x v (List.mem_of_mem_take hx)
    · rw [hclean fun b hb => absurd ((holds_iff_covers _ a).mpr ⟨b, hb⟩) h]
      exact flat_of_not_written m hnever
  · intro hnone
    apply hclean
    intro b hb
    by_contra hdirty
    refine List.countP_eq_zero.mp hnone b ?_ ?_
    · exact List.mem_flatMap.mpr ⟨_, get_mem_toList _ _, hb.1⟩
    · simpa [hb.2.1] using hdirty

/-- Room for a single word.  The first change went back when its block was evicted; the second one,
made since the block was fetched again, did not. -/
theorem get_store_run_under_changes :
    let r := (empty ⟨1, 0, 2, by decide, by decide, by decide⟩ .leastRecentlyUsed ({} : Memory)
      (⟨[]⟩ : Rota)).run [.write 0 7, .read 4, .write 0 9]
    r.2.Holds 0 ∧ r.2.store.get 0 = 7 ∧
      ∃ n, Geometry.LastFetchedAt ⟨1, 0, 2, by decide, by decide, by decide⟩
        [.write 0 7, .read 4, .write 0 9] r.1 0 n ∧
        flat {} ([.write 0 7, .read 4, .write 0 9].take n) (wordAddress 0) = 7 := by
  intro r
  have hword : r.2.store.get 0 = 7 := by cbv
  have hheld : r.2.Holds 0 :=
    ((sound_run _ .leastRecentlyUsed ({} : Memory) (⟨[]⟩ : Rota)
      [.write 0 7, .read 4]).holds_access_iff (.write 0 9) 0).mpr (Or.inl rfl)
  obtain ⟨n, hn, hget⟩ := (get_store_run _ .leastRecentlyUsed ({} : Memory) (⟨[]⟩ : Rota)
    [.write 0 7, .read 4, .write 0 9] 0).2.1 hheld
  exact ⟨hheld, hword, n, hn, hget.symm.trans hword⟩

end Cache

end SetAssoc

import SetAssoc.Proofs.Calls
import SetAssoc.Proofs.Reuse
/-!
# A larger cache holds what a smaller one holds

Under recency, more room never hurts.  Two caches with blocks of one size, one with at least as many
ways and at least as many sets as the other, serve the same accesses.  Their rows have nothing to do
with each other, but both hold exactly the blocks that are reused, and reuse in the smaller is reuse
in the larger (`Geometry.Reused.mono`).  So all that misses add up to is at most as much in the
larger one: cycles, words fetched, and the counters, as long as these do not go round.
-/

namespace SetAssoc

universe u u' v v'

namespace Cache

variable {μ : Type u} {μ' : Type u'} {ν : Type v} {ν' : Type v'}
  [Store μ] [Store μ'] [Evictor ν] [Evictor ν'] {g g' : Geometry}

/-- After the same accesses the larger cache holds what the smaller one holds. -/
theorem holds_run_mono (hblock : g.blockBytes = g'.blockBytes) (hways : g.ways ≤ g'.ways)
    (hsets : g.sets ≤ g'.sets) (m : μ) (m' : μ') (e : ν) (e' : ν') (ops : List Access)
    {a : UInt32} (h : ((empty g .leastRecentlyUsed m e).run ops).2.Holds a) :
    ((empty g' .leastRecentlyUsed m' e').run ops).2.Holds a := by
  rw [holds_run_iff] at h ⊢
  exact h.mono hblock hways hsets

/-- **The larger cache misses no more often.** -/
theorem missesOf_run_le (hblock : g.blockBytes = g'.blockBytes) (hways : g.ways ≤ g'.ways)
    (hsets : g.sets ≤ g'.sets) (m : μ) (m' : μ') (e : ν) (e' : ν') (ops : List Access) :
    missesOf ((empty g' .leastRecentlyUsed m' e').run ops).1 ≤
      missesOf ((empty g .leastRecentlyUsed m e).run ops).1 := by
  induction ops using List.reverseRecOn with
  | nil => exact Nat.le_refl _
  | append_singleton past op ih =>
    rw [run_concat, run_concat, missesOf_append, missesOf_append, missesOf_access, missesOf_access]
    apply Nat.add_le_add ih
    -- no row of one cache answers to a row of the other, so the step is about what they hold
    by_cases hsmall : ((empty g .leastRecentlyUsed m e).run past).2.Holds op.address
    · rw [if_pos hsmall, if_pos (holds_run_mono hblock hways hsets m m' e e' past hsmall)]
    · rw [if_neg hsmall]
      split
      · exact Nat.zero_le _
      · exact Nat.le_refl _

/-- The addresses of the words that a fresh cache under recency fetches from its store, in order. -/
def fetched (g : Geometry) (m : μ) (e : ν) (ops : List Access) : List UInt32 :=
  ((empty g .leastRecentlyUsed ({ inner := m } : Recorded μ) e).run ops).2.store.readAddresses

theorem length_fetched (g : Geometry) (m : μ) (e : ν) (ops : List Access) :
    (fetched g m e ops).length = g.blockWords *
      missesOf ((empty g .leastRecentlyUsed ({ inner := m } : Recorded μ) e).run ops).1 := by
  rw [fetched, length_readAddresses_run]
  exact Nat.zero_add _

/-- **Inclusion.**  Two caches under recency with blocks of one size, in front of any two stores,
serve the same accesses; the second has at least as many ways and at least as many sets.  At any
time it holds what the first one holds.  It answers for free wherever the first one does, and its
misses, its cycles and the words it fetches come to no more, in the counters too unless they go
round. -/
theorem inclusion (hblock : g.blockBytes = g'.blockBytes) (hways : g.ways ≤ g'.ways)
    (hsets : g.sets ≤ g'.sets) (m : μ) (m' : μ') (e : ν) (e' : ν') (ops : List Access) :
    let small := (empty g .leastRecentlyUsed m e).run
    let large := (empty g' .leastRecentlyUsed m' e').run
    (∀ n a, (small (ops.take n)).2.Holds a → (large (ops.take n)).2.Holds a) ∧
    (∀ k : Nat, (small ops).1[k]?.map Reply.cycles = some 0 →
      (large ops).1[k]?.map Reply.cycles = some 0) ∧
    missesOf (large ops).1 ≤ missesOf (small ops).1 ∧
    cyclesOf (large ops).1 ≤ cyclesOf (small ops).1 ∧
    (50 * ops.length < UInt64.size →
      (large ops).2.counters.misses ≤ (small ops).2.counters.misses ∧
      (large ops).2.counters.cycles ≤ (small ops).2.counters.cycles) ∧
    (fetched g' m' e' ops).length ≤ (fetched g m e ops).length := by
  intro small large
  have hmisses : missesOf (large ops).1 ≤ missesOf (small ops).1 :=
    missesOf_run_le hblock hways hsets m m' e e' ops
  have hcycles : cyclesOf (large ops).1 ≤ cyclesOf (small ops).1 := by
    rw [cyclesOf_run, cyclesOf_run]
    exact Nat.mul_le_mul_left _ hmisses
  refine ⟨?_, ?_, hmisses, hcycles, ?_, ?_⟩
  · intro n a
    exact holds_run_mono hblock hways hsets m m' e e' (ops.take n)
  · intro k hk
    obtain ⟨op, hop, hsmall⟩ := (cycles_run_eq_zero_iff _ ops k).mp hk
    apply (cycles_run_eq_zero_iff _ ops k).mpr
    exact ⟨op, hop, holds_run_mono hblock hways hsets m m' e e' (ops.take k) hsmall⟩
  · intro hlen
    obtain ⟨hsmallMisses, hsmallCycles⟩ := toNat_counters_run g .leastRecentlyUsed m e hlen
    obtain ⟨hlargeMisses, hlargeCycles⟩ := toNat_counters_run g' .leastRecentlyUsed m' e' hlen
    rw [UInt64.le_iff_toNat_le, UInt64.le_iff_toNat_le, hsmallMisses, hsmallCycles, hlargeMisses,
      hlargeCycles]
    exact ⟨hmisses, hcycles⟩
  · have hwords : g.blockWords = g'.blockWords := by
      have hfour := g.blockWords_mul_four
      have hfour' := g'.blockWords_mul_four
      omega
    rw [length_fetched, length_fetched, hwords]
    exact Nat.mul_le_mul_left _
      (missesOf_run_le hblock hways hsets ({ inner := m } : Recorded μ)
        ({ inner := m' } : Recorded μ') e e' ops)

/-- Three blocks in a row, twice: two ways miss every time, eight find them the second time. -/
theorem inclusion_of_eight_ways :
    missesOf ((empty ⟨8, 1, 2, by decide, by decide, by decide⟩ .leastRecentlyUsed ({} : Memory)
      (⟨[]⟩ : Rota)).run [.read 0, .read 8, .read 16, .read 0, .read 8, .read 16]).1 ≤
    missesOf ((empty ⟨2, 0, 2, by decide, by decide, by decide⟩ .leastRecentlyUsed ({} : Memory)
      (⟨[]⟩ : Rota)).run [.read 0, .read 8, .read 16, .read 0, .read 8, .read 16]).1 := by
  refine (inclusion ?_ ?_ ?_ ({} : Memory) ({} : Memory) (⟨[]⟩ : Rota) (⟨[]⟩ : Rota)
    [.read 0, .read 8, .read 16, .read 0, .read 8, .read 16]).2.2.1
  · rfl
  · decide
  · decide

end Cache

end SetAssoc

import SetAssoc.Proofs.Covering
import SetAssoc.Proofs.Totals
/-!
# What comes and what goes

An access brings in its own block and drives out one other at most.  `Cache.evicted?` names that
one: the block in the way that was settled on, if the access misses and the way is taken.  Since a
free way is preferred, this happens exactly where the set has none (`evicted?_eq_none_iff`), and
everything else is held after the access if it was held before (`Sound.holds_access_iff_evicted`).
-/

namespace SetAssoc

universe u v

/-- An address has the first address of the block with this index and this tag exactly if it has
the index and the tag. -/
theorem Geometry.blockStart_eq_address_iff (g : Geometry) (index : Fin g.sets) {tag : UInt32}
    (ht : tag.toNat < g.tags) (a : UInt32) :
    g.blockStart a = Location.address ⟨⟨0, g.blockWords_pos⟩, index, tag⟩ ↔
      (g.locate a).index = index ∧ (g.locate a).tag = tag := by
  let first : Location g := ⟨⟨0, g.blockWords_pos⟩, index, tag⟩
  have hloc : g.locate first.address = first := g.locate_address first ht
  have hstart : g.blockStart first.address = first.address := by
    have hsum := g.address_eq_blockStart_add first.address ⟨0, g.blockWords_pos⟩
    rw [hloc] at hsum
    exact (hsum.trans (UInt32.add_zero _)).symm
  show g.blockStart a = first.address ↔ _
  rw [← hstart, g.blockStart_eq_iff, hloc]

namespace Cache

variable {g : Geometry} {μ : Type u} {ν : Type v} [Store μ] [Evictor ν]

/-! ## The block that goes -/

/-- The first address of the block that an access to an address drives out. -/
def evicted? (c : Cache g μ ν) (a : UInt32) : Option UInt32 :=
  let old := (c.home a).get (c.settle a).way
  if c.Holds a ∨ old.valid = false then none
  else some (Location.address ⟨⟨0, g.blockWords_pos⟩, (g.locate a).index, old.tag⟩)

/-- **No block goes** if the block of the address is held or its set has a free way. -/
theorem evicted?_eq_none_iff (c : Cache g μ ν) (a : UInt32) :
    c.evicted? a = none ↔ c.Holds a ∨ ∃ way, ((c.home a).get way).valid = false := by
  have hs := c.settling a
  simp only [evicted?, ite_eq_left_iff, reduceCtorEq, imp_false, not_not]
  generalize c.settle a = s at hs
  cases hs with
  | hit way found => simp [holds_of_found found]
  | miss way evictor room => exact or_congr_right room.free_iff

theorem Sound.evicted?_eq_some_iff {c : Cache g μ ν} (hc : c.Sound) (a x : UInt32) :
    c.evicted? a = some (g.blockStart x) ↔
      ¬ c.Holds a ∧ (g.locate x).index = (g.locate a).index ∧
        ((c.home a).get (c.settle a).way).Bears (g.locate x).tag := by
  simp only [evicted?, Block.Bears]
  generalize (c.settle a).way = way
  by_cases hheld : c.Holds a
  · simp [hheld]
  cases hvalid : ((c.home a).get way).valid with
  | false => simp
  | true =>
    have htag := (hc _).tag_lt _ (get_mem_toList (c.home a) way) hvalid
    have hstart := g.blockStart_eq_address_iff (g.locate a).index htag x
    simp [hheld, eq_comm, hstart]

/-- **What an access leaves in the cache:** its own block, and what was there before except the
block that it drives out. -/
theorem Sound.holds_access_iff_evicted {c : Cache g μ ν} (hc : c.Sound) (op : Access)
    (x : UInt32) :
    (c.access op).2.Holds x ↔ g.blockStart x = g.blockStart op.address ∨
      (c.Holds x ∧ c.evicted? op.address ≠ some (g.blockStart x)) := by
  have hs := c.settling op.address
  rw [hc.holds_access_iff, Ne, hc.evicted?_eq_some_iff]
  refine or_congr_right' fun hblock => ?_
  generalize c.settle op.address = s at hs
  cases hs with
  | hit way found =>
    have hheld := holds_of_found found
    exact ⟨fun h => ⟨h, fun hgone => hgone.1 hheld⟩, And.left⟩
  | miss way evictor room =>
    have hreplace := Sound.covers_replace_iff (c := { c with evictor }) hc room.not_covers way x
    rw [holds_iff_covers, holds_iff_covers]
    simp only [hreplace, if_neg hblock]
    constructor
    · rintro ⟨b, hb, hne⟩
      refine ⟨⟨b, hb⟩, ?_⟩
      rintro ⟨-, hindex, hbears⟩
      have hold : c.Covers ((c.home op.address).get way) x := by
        refine ⟨?_, hbears⟩
        rw [c.home_congr hindex]
        exact get_mem_toList _ way
      exact hne hindex (hc.eq_of_covers hb hold)
    · rintro ⟨⟨b, hb⟩, hstays⟩
      refine ⟨b, hb, ?_⟩
      rintro hindex rfl
      exact hstays ⟨room.not_holds, hindex, hb.2⟩

/-- A block that goes was held, and stands in the set of the address. -/
theorem Sound.exists_evicted {c : Cache g μ ν} (hc : c.Sound) {a : UInt32}
    (hheld : ¬ c.Holds a) (hfull : ∀ way, ((c.home a).get way).valid = true) :
    ∃ gone, c.evicted? a = some (g.blockStart gone) ∧
      (g.locate gone).index = (g.locate a).index ∧ c.Holds gone := by
  have hvalid := hfull (c.settle a).way
  obtain ⟨gone, hindex, hcovers⟩ := hc.exists_covers (get_mem_toList (c.home a) _) hvalid
  refine ⟨gone, ?_, hindex, (holds_iff_covers c gone).mpr ⟨_, hcovers⟩⟩
  exact (hc.evicted?_eq_some_iff a gone).mpr ⟨hheld, hindex, hcovers.2⟩

/-! ## What one access does to what is held -/

/-- **What is held changes by one block at most**, and whether the cache holds an address tells what
the next access to it costs.  After an access its own block is held, and no other one is new.  If
the block was held before, or its set had a free way, everything held before stays.  Otherwise one
block of the set goes, and everything else stays.  The other sets do not change. -/
theorem residency_of_access {c : Cache g μ ν} (hc : c.Reachable) (op : Access) :
    let a := op.address
    let after := (c.access op).2
    (c.Holds a ↔ (c.access op).1.cycles = 0) ∧
    (∀ x, g.blockStart x = g.blockStart a → after.Holds x) ∧
    ((c.Holds a ∨ ∃ way, ((c.home a).get way).valid = false) → ∀ x, c.Holds x → after.Holds x) ∧
    (¬ c.Holds a → (∀ way, ((c.home a).get way).valid = true) →
      ∃ gone, (g.locate gone).index = (g.locate a).index ∧
        g.blockStart gone ≠ g.blockStart a ∧ c.Holds gone ∧
        ∀ x, c.Holds x → (after.Holds x ↔ g.blockStart x ≠ g.blockStart gone)) ∧
    (∀ x, after.Holds x → g.blockStart x = g.blockStart a ∨ c.Holds x) ∧
    ∀ s, s ≠ (g.locate a).index → after.sets.get s = c.sets.get s := by
  intro a after
  have hsound := hc.sound
  have hleft := hsound.holds_access_iff_evicted op
  refine ⟨?_, fun x hx => (hleft x).mpr (.inl hx), ?_, ?_, ?_, ?_⟩
  · rw [cycles_access]
    by_cases hheld : c.Holds a
    · simp [a, hheld, hitCycles]
    · simp [a, hheld, missCycles]
  · intro hroom x hx
    refine (hleft x).mpr (.inr ⟨hx, ?_⟩)
    rw [(c.evicted?_eq_none_iff a).mpr hroom]
    exact nofun
  · intro hheld hfull
    obtain ⟨gone, hgone, hindex, hholds⟩ := hsound.exists_evicted hheld hfull
    have hother : ∀ x, c.Holds x → g.blockStart x ≠ g.blockStart a :=
      fun x hx hblock => hheld ((c.holds_congr hblock).mp hx)
    refine ⟨gone, hindex, hother gone hholds, hholds, fun x hx => ?_⟩
    rw [hleft, or_iff_right (hother x hx), and_iff_right hx, hgone, Ne, Option.some.injEq, eq_comm]
  · exact fun x hx => hsound.holds_of_holds_access hx
  · exact fun s hs => c.sets_access_of_ne hs

/-- Two ways, both taken: one of the blocks goes when a third one comes. -/
theorem residency_of_access_full :
    let c := ((empty ⟨2, 0, 3, by decide, by decide, by decide⟩ .random ({} : Memory)
      (⟨[1]⟩ : Rota)).run [.read 0, .read 12]).2
    let after := (c.access (.read 16)).2
    c.Reachable ∧ after.Holds 20 ∧ ∃ gone, c.Holds gone ∧ ¬ after.Holds gone := by
  intro c after
  have hc : c.Reachable := reachable_run _ .random ({} : Memory) (⟨[1]⟩ : Rota) [.read 0, .read 12]
  obtain ⟨-, hown, -, hgone, -⟩ := residency_of_access hc (.read 16)
  obtain ⟨gone, -, -, hheld, hstays⟩ := hgone (by decide +kernel) (by decide +kernel)
  exact ⟨hc, hown 20 rfl, gone, hheld, fun h => (hstays gone hheld).mp h rfl⟩

end Cache

end SetAssoc

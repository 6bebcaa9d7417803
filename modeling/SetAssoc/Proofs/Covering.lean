import SetAssoc.Proofs.Invariant
/-!
# The block over an address

From an address one block of the cache is seen at most, the one in its set that bears its tag.  Both
stages of an access are told by what becomes of that block, for every address: the first stage puts
the block fetched over the addresses of one block and takes away the one that had to go
(`Sound.covers_replace_iff`); the second changes the block accessed (`Sound.covers_serveAt_iff`).
From everywhere else the same is seen as before.
-/

namespace SetAssoc

universe u v

/-- Who bears a tag in a row that one block was put into, when no other block there bears that
block's tag. -/
theorem bears_put_iff {n : Nat} {xs ys : List (Block n)} {b new : Block n} {t r : UInt32}
    (hnew : new.Bears t) (hother : ∀ c ∈ xs ++ ys, ¬ c.Bears t) :
    (b = new ∨ b ∈ xs ++ ys) ∧ b.Bears r ↔
      if r = t then b = new else b ∈ xs ++ ys ∧ b.Bears r := by
  by_cases hr : r = t
  · subst hr
    rw [if_pos rfl]
    constructor
    · rintro ⟨hb | hb, hbears⟩
      · exact hb
      · exact absurd hbears (hother b hb)
    · rintro rfl
      exact ⟨Or.inl rfl, hnew⟩
  · rw [if_neg hr]
    constructor
    · rintro ⟨rfl | hb, hbears⟩
      · exact absurd (hbears.2.symm.trans hnew.2) hr
      · exact ⟨hb, hbears⟩
    · rintro ⟨hb, hbears⟩
      exact ⟨Or.inr hb, hbears⟩

namespace Cache

variable {g : Geometry} {μ : Type u} {ν : Type v}

/-- The block stands in the set of the address and bears its tag. -/
def Covers (c : Cache g μ ν) (b : Block g.blockWords) (a : UInt32) : Prop :=
  b ∈ (c.home a).toList ∧ b.Bears (g.locate a).tag

theorem holds_iff_covers (c : Cache g μ ν) (a : UInt32) : c.Holds a ↔ ∃ b, c.Covers b a :=
  c.holds_iff a

/-- All addresses of a block see the same. -/
theorem covers_congr (c : Cache g μ ν) {a x : UInt32} (h : g.blockStart x = g.blockStart a)
    (b : Block g.blockWords) : c.Covers b x ↔ c.Covers b a := by
  obtain ⟨hindex, htag⟩ := (g.blockStart_eq_iff x a).mp h
  rw [Covers, Covers, c.home_congr hindex, htag]

/-- All addresses of a block are held or none is. -/
theorem holds_congr (c : Cache g μ ν) {a x : UInt32} (h : g.blockStart x = g.blockStart a) :
    c.Holds x ↔ c.Holds a := by
  rw [holds_iff_covers, holds_iff_covers]
  exact exists_congr (c.covers_congr h)

theorem covers_of_bears {c : Cache g μ ν} {a : UInt32} {way : Fin g.ways}
    (hway : ((c.home a).get way).Bears (g.locate a).tag) : c.Covers ((c.home a).get way) a :=
  ⟨get_mem_toList _ way, hway⟩

theorem Room.not_covers [Evictor ν] {c : Cache g μ ν} {a : UInt32} {way : Fin g.ways} {evictor : ν}
    (room : c.Room a way evictor) (b : Block g.blockWords) : ¬ c.Covers b a :=
  fun hb => room.not_bears b hb.1 hb.2

/-- **One address, one block.** -/
theorem Sound.eq_of_covers {c : Cache g μ ν} (hc : c.Sound) {a : UInt32}
    {b b' : Block g.blockWords} (h : c.Covers b a) (h' : c.Covers b' a) : b = b' :=
  (hc _).eq_of_bears h.1 h'.1 h.2 h'.2

/-- Every block of the cache is seen from an address of its set. -/
theorem Sound.exists_covers {c : Cache g μ ν} (hc : c.Sound) {s : Fin g.sets}
    {b : Block g.blockWords} (hb : b ∈ (c.sets.get s).toList) (hvalid : b.valid = true) :
    ∃ a, (g.locate a).index = s ∧ c.Covers b a := by
  obtain ⟨a, -, rfl, htag, -⟩ := g.exists_start s ((hc s).tag_lt b hb hvalid)
  exact ⟨a, rfl, hb, hvalid, htag.symm⟩

/-- **What is seen after a block was fetched:** that block, from its own addresses; from all others
what was seen before, unless it had to go. -/
theorem Sound.covers_replace_iff [Store μ] {c : Cache g μ ν} (hc : c.Sound) {a : UInt32}
    (hfresh : ∀ b, ¬ c.Covers b a) (way : Fin g.ways) (x : UInt32) (b : Block g.blockWords) :
    (c.replace a way).cache.Covers b x ↔
      if g.blockStart x = g.blockStart a then b = (fetch g a (c.vacate a way)).1
      else c.Covers b x ∧ ((g.locate x).index = (g.locate a).index → b ≠ (c.home a).get way) := by
  obtain ⟨xs, ys, -, hrow, hset⟩ := exists_split (c.home a) way
  rw [Covers, home_of_sets (sets_replace c a way) x]
  by_cases hindex : (g.locate x).index = (g.locate a).index
  · have hblock : g.blockStart x = g.blockStart a ↔ (g.locate x).tag = (g.locate a).tag := by
      rw [g.blockStart_eq_iff]
      exact and_iff_right hindex
    have hother : ∀ d ∈ xs ++ ys, ¬ d.Bears (g.locate a).tag := by
      intro d hd hbears
      apply hfresh d
      refine ⟨?_, hbears⟩
      rw [hrow, List.perm_middle.mem_iff]
      exact List.mem_cons_of_mem _ hd
    rw [if_pos hindex, hset, List.perm_middle.mem_iff, List.mem_cons,
      bears_put_iff (bears_fetch a _) hother]
    by_cases htag : (g.locate x).tag = (g.locate a).tag
    · rw [if_pos htag, if_pos (hblock.mpr htag)]
    · rw [if_neg htag, if_neg fun h => htag (hblock.mp h), Covers, c.home_congr hindex, hrow,
        List.perm_middle.mem_iff, List.mem_cons]
      constructor
      · rintro ⟨hb, hbears⟩
        refine ⟨⟨Or.inr hb, hbears⟩, fun _ => ?_⟩
        rintro rfl
        -- the block that had to go stood in the row once only
        have htidy := hc (g.locate a).index
        rw [hrow] at htidy
        exact htidy.tag_ne hbears.1 _ hb hbears.1 rfl
      · rintro ⟨⟨hb, hbears⟩, hne⟩
        exact ⟨hb.resolve_left (hne hindex), hbears⟩
  · rw [if_neg hindex, if_neg fun h => hindex ((g.blockStart_eq_iff x a).mp h).1]
    constructor
    · intro h
      exact ⟨h, fun h' => absurd h' hindex⟩
    · rintro ⟨h, -⟩
      exact h

/-- **What is seen after an access was served:** the block accessed as the access left it, from its
own addresses, and from all others what was seen before. -/
theorem Sound.covers_serveAt_iff {c : Cache g μ ν} (hc : c.Sound) {op : Access} {way : Fin g.ways}
    (hway : ((c.home op.address).get way).Bears (g.locate op.address).tag) (x : UInt32)
    (b : Block g.blockWords) :
    (c.serveAt op way).Covers b x ↔
      if g.blockStart x = g.blockStart op.address then
        b = op.leave ((c.home op.address).get way) (g.locate op.address).offset
      else c.Covers b x := by
  obtain ⟨xs, ys, -, hrow, hrow'⟩ := c.exists_split_servedRow op way
  have hhome : ∀ x, (c.serveAt op way).home x = _ := home_of_sets rfl
  rw [Covers, hhome]
  by_cases hindex : (g.locate x).index = (g.locate op.address).index
  · have hblock : g.blockStart x = g.blockStart op.address ↔
        (g.locate x).tag = (g.locate op.address).tag := by
      rw [g.blockStart_eq_iff]
      exact and_iff_right hindex
    have htidy := hc (g.locate op.address).index
    rw [hrow] at htidy
    have hother : ∀ d ∈ xs ++ ys, ¬ d.Bears (g.locate op.address).tag := by
      intro d hd hbears
      exact htidy.tag_ne hway.1 d hd hbears.1 (hbears.2.trans hway.2.symm)
    rw [if_pos hindex, hrow', Policy.mem_arrange, bears_put_iff (bears_leave hway) hother]
    by_cases htag : (g.locate x).tag = (g.locate op.address).tag
    · rw [if_pos htag, if_pos (hblock.mpr htag)]
    · -- the row before is the same row with the block put back as it was
      rw [if_neg htag, if_neg fun h => htag (hblock.mp h), Covers, c.home_congr hindex, hrow,
        List.perm_middle.mem_iff, List.mem_cons, bears_put_iff hway hother, if_neg htag]
  · rw [if_neg hindex, if_neg fun h => hindex ((g.blockStart_eq_iff _ _).mp h).1]
    rfl

/-! ## What is held after an access -/

section Access

variable [Store μ] [Evictor ν]

/-- **What an access leaves in the cache:** its own block, and what was there after the block was
settled. -/
theorem Sound.holds_access_iff {c : Cache g μ ν} (hc : c.Sound) (op : Access) (a : UInt32) :
    (c.access op).2.Holds a ↔
      g.blockStart a = g.blockStart op.address ∨ (c.settle op.address).cache.Holds a := by
  have hs := c.settling op.address
  rw [holds_iff_covers, holds_iff_covers, access_eq]
  simp only [(hc.settling hs).covers_serveAt_iff hs.bears]
  by_cases hblock : g.blockStart a = g.blockStart op.address
  · simp [hblock]
  · simp [hblock]

/-- Only the block accessed can be new. -/
theorem Sound.holds_of_holds_access {c : Cache g μ ν} (hc : c.Sound) {op : Access} {a : UInt32}
    (h : (c.access op).2.Holds a) : g.blockStart a = g.blockStart op.address ∨ c.Holds a := by
  have hs := c.settling op.address
  rw [hc.holds_access_iff] at h
  rcases h with hblock | h
  · exact Or.inl hblock
  · generalize c.settle op.address = s at hs h
    cases hs with
    | hit way found => exact Or.inr h
    | miss way evictor room =>
      obtain ⟨b, hb⟩ := (holds_iff_covers _ a).mp h
      rw [Sound.covers_replace_iff (c := { c with evictor }) hc room.not_covers way] at hb
      split at hb
      · next hblock => exact Or.inl hblock
      · exact Or.inr ((holds_iff_covers c a).mpr ⟨b, hb.1⟩)

end Access

end Cache

end SetAssoc
